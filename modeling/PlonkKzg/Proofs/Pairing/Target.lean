import PlonkKzg.Proofs.Field.Encoding
import PlonkKzg.Proofs.Pairing.Ate

/-!
# Negatives in the target group

The bytes of every element of `Fq12` are read as a value, while the negative of a value is its
conjugate, which is the power to `p ^ 6`. So a value and its negative cancel exactly if the power to
`p ^ 6 + 1` is one. The order of the scalars divides that number, so the values of pairings are such,
and most elements of `Fq12` are not.

* `Gt.ofBytes?_eq_ok_iff` — what is read: the first 384 bytes are those of the value;
* `Gt.addCommMonoid` — sums form a commutative monoid;
* `Gt.value_add_neg` — the sum with the negative is the power to `p ^ 6 + 1`;
* `Gt.add_neg_eq_zero_of_order`, `Gt.add_neg_pair` — the target group, and the values of pairings;
* `Gt.cancels_iff` — the values read for which subtraction undoes addition;
* `Gt.two_does_not_cancel` — the bytes of two are read, and two is not among them.
-/

namespace PlonkKzg

namespace Gt

/-! ### Reading -/

/-- Decoding accepts every element of the extension field, member or not. -/
theorem ofBytes?_eq_ok_iff {bs : List UInt8} {v : Gt} :
    ofBytes? bs = .ok v ↔ bs.take byteLength = v.toBytes := by
  constructor
  · intro h
    unfold ofBytes? at h
    split at h
    · rename_i value rest hread
      cases h
      rw [← Fq12.ofBytes?_eq_some_iff.1 hread]
      exact List.take_left' (Fq12.toBytes_length value)
    · cases h
  · intro h
    rw [← List.take_append_drop byteLength bs, h]
    exact ofBytes?_toBytes v _

/-! ### Sums and negatives -/

@[simp] theorem value_zero : (0 : Gt).value = 1 := rfl

theorem sub_eq_add_neg (a b : Gt) : a - b = a + -b := rfl

instance addCommMonoid : AddCommMonoid Gt where
  add_assoc a b c := Gt.ext (mul_assoc a.value b.value c.value)
  zero_add a := Gt.ext (one_mul a.value)
  add_zero a := Gt.ext (mul_one a.value)
  add_comm a b := Gt.ext (mul_comm a.value b.value)
  nsmul := nsmulRec

/-- A value and its negation add up to its norm over the sextic subfield. -/
theorem value_add_neg (v : Gt) : (v + -v).value = v.value ^ (Fq.order ^ 6 + 1) := by
  show v.value * v.value.conj = _
  rw [Fq12.conj_eq_pow, ← pow_succ' v.value]

/-- A value cancels with its negation exactly when that norm is one. -/
theorem add_neg_eq_zero_iff (v : Gt) :
    v + -v = 0 ↔ power v.value (Nat.pow Fq.order 6 + 1) = 1 := by
  rw [Gt.ext_iff, value_add_neg, value_zero, power_eq_pow, Nat.pow_eq]

/-- The sum of zero and the value is the one to look at. -/
theorem add_sub_cancels_iff (v : Gt) : (∀ a : Gt, a + v - v = a) ↔ v + -v = 0 := by
  constructor
  · intro h
    have hzero := h 0
    rwa [sub_eq_add_neg, zero_add] at hzero
  · intro h a
    rw [sub_eq_add_neg, add_assoc, h, add_zero]

theorem order_dvd_pow_six_add_one : Scalar.order ∣ Fq.order ^ 6 + 1 := by decide

/-- Values of the subgroup's order cancel with their negation. -/
theorem add_neg_eq_zero_of_order {v : Gt} (h : power v.value Scalar.order = 1) : v + -v = 0 := by
  obtain ⟨k, hk⟩ := order_dvd_pow_six_add_one
  rw [power_eq_pow] at h
  rw [add_neg_eq_zero_iff, power_eq_pow, Nat.pow_eq, hk, pow_mul, h, one_pow]

/-- What the pairing returns cancels with its negation. -/
theorem add_neg_pair (P : G1) (Q : G2) : Ate.pair P Q + -Ate.pair P Q = 0 :=
  add_neg_eq_zero_of_order (Ate.power_pair P Q)

/-- A value that was read and its negative cancel exactly if its power to `p ^ 6 + 1` is one, and
exactly then subtracting it undoes adding it. The values of the order of the scalars are such, and
so are the values of pairings. -/
theorem cancels_iff {bs : List UInt8} {v : Gt} (h : ofBytes? bs = .ok v) :
    bs.take byteLength = v.toBytes ∧
      (v + -v = 0 ↔ power v.value (Nat.pow Fq.order 6 + 1) = 1) ∧
      ((∀ a : Gt, a + v - v = a) ↔ power v.value (Nat.pow Fq.order 6 + 1) = 1) ∧
      (power v.value Scalar.order = 1 → v + -v = 0 ∧ ∀ a : Gt, a + v - v = a) ∧
      ((∃ (P : G1) (Q : G2), v = Ate.pair P Q) → v + -v = 0 ∧ ∀ a : Gt, a + v - v = a) := by
  have hneg := add_neg_eq_zero_iff v
  have hsub := add_sub_cancels_iff v
  refine ⟨ofBytes?_eq_ok_iff.1 h, hneg, hsub.trans hneg, ?_, ?_⟩
  · intro horder
    have hzero := add_neg_eq_zero_of_order horder
    exact ⟨hzero, hsub.2 hzero⟩
  · rintro ⟨P, Q, rfl⟩
    have hzero := add_neg_pair P Q
    exact ⟨hzero, hsub.2 hzero⟩

def unitary : Gt := ⟨(⟨1, 1⟩ : Fq12).conj * (⟨1, 1⟩ : Fq12)⁻¹⟩

/-- A value other than the zero of the group that still cancels. -/
theorem unitary_cancels :
    ofBytes? (unitary.toBytes ++ []) = .ok unitary ∧ unitary ≠ 0 ∧
      power unitary.value (Nat.pow Fq.order 6 + 1) = 1 :=
  ⟨ofBytes?_toBytes unitary [], by decide +kernel,
    (cancels_iff (ofBytes?_toBytes unitary [])).2.1.1 (by decide +kernel)⟩

/-- The value two, which no pairing has. -/
def two : Gt := ⟨1 + 1⟩

/-- The bytes of two are read. Its conjugate is two again, so the sum with the negative is four,
and subtracting two from the sum of zero and two leaves four. -/
theorem two_does_not_cancel :
    ofBytes? (2 :: List.replicate 383 0) = .ok two ∧ two + -two ≠ 0 ∧ 0 + two - two ≠ 0 := by
  decide +kernel

end Gt

end PlonkKzg
