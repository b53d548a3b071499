import Mathlib.FieldTheory.Finiteness
import Mathlib.LinearAlgebra.FiniteDimensional.Basic
import Mathlib.Tactic.NormNum.Prime
import PlonkKzg.Proofs.Curve.Membership
import PlonkKzg.Proofs.Field.Frobenius
import PlonkKzg.Proofs.Pairing.Target

/-!
# The members of the pairing groups

The points of the twisted curve and the elements of `Fq12` are more than the groups that a pairing
is about. Those whose order is that of the scalars are modules over the scalars, and the pairing of a
point with a member is a member.

The points of the twist that are members are a power of the order of the scalars, since they are a
vector space. The square of that order, times the order of a point that is none, is more than there
are points with coordinates in `Fq2`, so they are as many as the scalars.

* `G2.members`, `G2.module` — the members of the second group;
* `G2.natCard_members`, `G2.primeOrder` — how many they are;
* `Gt.members`, `Gt.addCommGroup`, `Gt.module` — those of the target group, which have negatives;
* `Pairing.members` — the pairing of a point with a member.
-/

namespace PlonkKzg

namespace G2

/-! ### The second group -/

/-- The points of the twisted curve that are in the group. -/
def members : AddSubgroup G2 where
  carrier := {Q | inSubgroup Q = true}
  add_mem' := inSubgroup_add
  zero_mem' := inSubgroup_zero
  neg_mem' := inSubgroup_neg

instance : SMul Scalar members := ⟨fun k Q => ⟨k • Q.1, inSubgroup_smul k Q.2⟩⟩

instance : Generator members := ⟨⟨generator, inSubgroup_generator⟩⟩

@[simp] theorem coe_generator_members : (↑(Generator.generator : members) : G2) = generator := rfl

theorem order_nsmul_members (Q : members) : Scalar.order • Q = 0 :=
  Subtype.ext (inSubgroup_iff.1 Q.2)

theorem smul_members_eq_nsmul (k : Scalar) (Q : members) : k • Q = k.val • Q :=
  Subtype.ext (CurvePoint.times_eq_nsmul _ _)

instance module : Module Scalar members :=
  Scalar.moduleOfOrder smul_members_eq_nsmul order_nsmul_members

/-! ### How many members there are -/

instance finite : Finite G2 := CurvePoint.finite

/-- Two points for each abscissa and one at infinity. -/
theorem card_le : Nat.card G2 ≤ 2 * Fq.order ^ 2 + 1 := by
  have hcard : Nat.card Fq2 = Fq.order ^ 2 := by rw [Nat.card_eq_fintype_card, Fq2.card_eq]
  exact hcard ▸ CurvePoint.card_le

/-- The order of a point outside the subgroup, by running the multiplication. -/
theorem addOrderOf_outsider : addOrderOf outsider = 10069 := by
  have hprime : Fact (Nat.Prime 10069) := ⟨by norm_num⟩
  have hmultiple : 10069 • outsider = 0 :=
    CurvePoint.ext ((CurvePoint.point_nsmul _ _).trans outsider_times)
  exact addOrderOf_eq_prime hmultiple (by decide)

/-- As a vector space over the scalars, the subgroup has a power of the order as its size. -/
theorem natCard_members_eq_pow :
    Nat.card members = Scalar.order ^ Module.finrank Scalar members := by
  have hscalars : Nat.card Scalar = Scalar.order := by
    rw [Nat.card_eq_fintype_card, Residue.card_eq]
  rw [← hscalars]
  exact Module.natCard_eq_pow_finrank

instance nontrivial : Nontrivial members :=
  ⟨Generator.generator, 0, fun h => absurd (congrArg Subtype.val h) (by decide : generator ≠ 0)⟩

/-- With two dimensions there would be more points than the curve has. -/
theorem finrank_members : Module.finrank Scalar members = 1 := by
  have hpos : 0 < Module.finrank Scalar members := Module.finrank_pos
  have hlt : Module.finrank Scalar members < 2 := by
    by_contra htwo
    -- That square and the order of a point outside would both divide the number of points.
    have hsquare : Scalar.order ^ 2 ∣ Nat.card G2 := by
      have hdvd : Scalar.order ^ 2 ∣ Nat.card members := by
        rw [natCard_members_eq_pow]
        exact pow_dvd_pow Scalar.order (Nat.not_lt.1 htwo)
      exact hdvd.trans members.card_addSubgroup_dvd_card
    have houtsider : 10069 ∣ Nat.card G2 :=
      addOrderOf_outsider ▸ addOrderOf_dvd_natCard outsider
    have hcoprime : Nat.Coprime (Scalar.order ^ 2) 10069 := by decide
    have hle := Nat.le_of_dvd Nat.card_pos (hcoprime.mul_dvd_of_dvd_of_dvd hsquare houtsider)
    have hroom : 2 * Fq.order ^ 2 + 1 < Scalar.order ^ 2 * 10069 := by decide
    exact absurd (hle.trans card_le) (Nat.not_le.2 hroom)
  omega

theorem natCard_members : Nat.card members = Scalar.order := by
  rw [natCard_members_eq_pow, finrank_members, pow_one]

instance primeOrder : PrimeOrder members where
  card_eq := natCard_members
  generator_ne_zero h := absurd (congrArg Subtype.val h) (by decide : generator ≠ 0)

end G2

namespace Gt

/-! ### The target group -/

/-- The elements of `Fq12` whose power to the order of the scalars is one. -/
def members : AddSubmonoid Gt where
  carrier := {v | power v.value Scalar.order = 1}
  add_mem' := by
    intro v w (hv : power v.value _ = 1) (hw : power w.value _ = 1)
    show power (v.value * w.value) Scalar.order = 1
    rw [power_eq_pow] at hv hw ⊢
    rw [mul_pow, hv, hw, one_mul]
  zero_mem' := by
    show power (0 : Gt).value Scalar.order = 1
    rw [power_eq_pow, value_zero, one_pow]

theorem neg_mem_members {v : Gt} (hv : v ∈ members) : -v ∈ members := by
  have hpow : power v.value Scalar.order = 1 := hv
  show power v.value.conj Scalar.order = 1
  rw [power_eq_pow] at hpow ⊢
  rw [Fq12.conj_eq_pow, ← pow_mul, Nat.mul_comm, pow_mul, hpow, one_pow]

/-- Multiples of the additive group are powers in the field. -/
theorem value_nsmul (n : Nat) (v : Gt) : (n • v).value = v.value ^ n := by
  induction n with
  | zero => rw [zero_nsmul, value_zero, pow_zero]
  | succ n ih =>
      rw [succ_nsmul, pow_succ, ← ih]
      rfl

theorem smul_eq_nsmul (k : Scalar) (v : Gt) : k • v = k.val • v := by
  apply Gt.ext
  rw [value_nsmul, ← power_eq_pow]
  rfl

theorem smul_mem_members (k : Scalar) {v : Gt} (hv : v ∈ members) : k • v ∈ members := by
  rw [smul_eq_nsmul]
  exact members.nsmul_mem hv _

instance : Neg members := ⟨fun v => ⟨-v.1, neg_mem_members v.2⟩⟩

/-- The negative of a member is its inverse. -/
instance addCommGroup : AddCommGroup members where
  zsmul := zsmulRec
  neg_add_cancel v := Subtype.ext ((add_comm _ _).trans (add_neg_eq_zero_of_order v.2))

instance : SMul Scalar members := ⟨fun k v => ⟨k • v.1, smul_mem_members k v.2⟩⟩

theorem smul_members_eq_nsmul (k : Scalar) (v : members) : k • v = k.val • v :=
  Subtype.ext (smul_eq_nsmul k v.1)

theorem order_nsmul_members (v : members) : Scalar.order • v = 0 := by
  apply Subtype.ext
  apply Gt.ext
  show (Scalar.order • (v : Gt)).value = 1
  rw [value_nsmul, ← power_eq_pow]
  exact v.2

instance module : Module Scalar members :=
  Scalar.moduleOfOrder smul_members_eq_nsmul order_nsmul_members

end Gt

/-- The pairing of a point with a member is a member. -/
instance Pairing.members : Pairing G1 G2.members Gt.members :=
  ⟨fun P Q => ⟨Ate.pair P Q, Ate.power_pair P Q⟩⟩

theorem Pairing.coe_pair_members (P : G1) (Q : G2.members) :
    ((pair P Q : Gt.members) : Gt) = Ate.pair P Q := rfl

end PlonkKzg
