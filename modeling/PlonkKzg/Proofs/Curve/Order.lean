import Mathlib.GroupTheory.Perm.Cycle.Type
import PlonkKzg.Proofs.Curve.Compressed
import PlonkKzg.Proofs.Curve.GroupLaw
import PlonkKzg.Proofs.Pairing.Laws

/-!
# The order of the first pairing group

The curve has as many points as there are scalars, so every point of the curve is in the group. There
is room for fewer than three times that many points. The base point has the order of the scalars, which is a prime, so there are once or
twice that many; and twice is impossible, since there is no point of order two, minus three being no
cube.

* `G1.smooth` — the curve has no singular point, so its points are a group;
* `G1.card_le` — a bound on the number of points;
* `G1.order_dvd_card`, `G1.add_self_ne_zero` — the order of the base point, and that of no point;
* `G1.snd_ne_zero` — no point has the second coordinate zero;
* `G1.card_eq` — the number of points;
* `G1.inSubgroup_eq_true`, `G1.ofBytes?_toBytes` — every point is read from its bytes;
* `G1.module`, `G1.primeOrder` — the scalars act on the group, and the base point generates it.
-/

namespace PlonkKzg

namespace G1

instance smooth : SmoothCurve G1.b := ⟨by decide +kernel⟩

/-! ### The number of points -/

instance finite : Finite G1 := CurvePoint.finite

/-- Two points for each abscissa and one at infinity. -/
theorem card_le : Nat.card G1 ≤ 2 * Fq.order + 1 := by
  have hcard : Nat.card Fq = Fq.order := by rw [Nat.card_eq_fintype_card, Residue.card_eq]
  exact hcard ▸ CurvePoint.card_le

/-- The order annihilates the generator, by running the multiplication. -/
theorem times_order_generator : generator.point.times Scalar.order = .infinity := by
  decide +kernel

/-- The order being prime, it is the exact order of the generator. -/
theorem addOrderOf_generator : addOrderOf generator = Scalar.order := by
  have hmultiple : Scalar.order • generator = 0 :=
    CurvePoint.ext ((CurvePoint.point_nsmul _ _).trans times_order_generator)
  exact addOrderOf_eq_prime hmultiple (by decide)

theorem order_dvd_card : Scalar.order ∣ Nat.card G1 :=
  addOrderOf_generator ▸ addOrderOf_dvd_natCard generator

/-- Minus three is no cube, as its power to a third of `p - 1` is not one. -/
theorem cubic_ne_zero (x : Fq) : Point.cubic G1.b x ≠ 0 := by
  intro hzero
  have hcube : x ^ 3 = -G1.b := by
    rw [Point.cubic] at hzero
    linear_combination hzero
  have hx : x ≠ 0 := by
    rintro rfl
    exact absurd hcube (by decide +kernel)
  have hpower : power (-G1.b) ((Fq.order - 1) / 3) = 1 := by
    have hfermat := FiniteField.pow_card_sub_one_eq_one x hx
    have hcard : Fintype.card Fq = Fq.order := Residue.card_eq
    have hthird : 3 * ((Fq.order - 1) / 3) = Fq.order - 1 := by decide +kernel
    rw [hcard] at hfermat
    rw [power_eq_pow, ← hcube, ← pow_mul, hthird, hfermat]
  exact absurd hpower (by decide +kernel)

theorem snd_ne_zero {P : G1} {x y : Fq} (hP : P.point = .affine x y) : y ≠ 0 := by
  rintro rfl
  have hcurve := P.onCurve
  rw [hP, Point.OnCurve, mul_zero] at hcurve
  exact cubic_ne_zero x hcurve.symm

/-- A tangent is vertical only where the second coordinate is zero. -/
theorem add_self_ne_zero {P : G1} (hP : P ≠ 0) : P + P ≠ 0 := by
  intro hzero
  have hpoint : P.point.double = .infinity := by
    rw [← Point.add_self, ← CurvePoint.point_add, hzero]
    rfl
  obtain hinfinity | ⟨x, y, haffine⟩ := P.point.eq_infinity_or_affine
  · exact hP (CurvePoint.ext hinfinity)
  · rw [haffine, Point.double, if_neg (snd_ne_zero haffine)] at hpoint
    cases hpoint

/-- There are fewer points than three times the order, and twice would need a point of order two. -/
theorem card_eq : Nat.card G1 = Scalar.order := by
  obtain ⟨k, hk⟩ := order_dvd_card
  have hpos : 0 < Nat.card G1 := Nat.card_pos
  have hlt : k < 3 := by
    have hbound : 2 * Fq.order + 1 < Scalar.order * 3 := by decide
    exact Nat.lt_of_mul_lt_mul_left (hk ▸ card_le.trans_lt hbound)
  have htwo : k ≠ 2 := by
    rintro rfl
    -- Then there would be a point of order two, which is its own negative.
    have hprime : Fact (Nat.Prime 2) := ⟨Nat.prime_two⟩
    obtain ⟨P, hP⟩ := exists_prime_addOrderOf_dvd_card' (G := G1) 2 (hk ▸ Nat.dvd_mul_left 2 _)
    have hdouble := addOrderOf_nsmul_eq_zero P
    have hne : P ≠ 0 := by
      rintro rfl
      rw [addOrderOf_zero] at hP
      omega
    rw [hP, two_nsmul] at hdouble
    exact add_self_ne_zero hne hdouble
  have hone : k = 1 := by
    rcases Nat.eq_zero_or_pos k with rfl | hk'
    · rw [hk, Nat.mul_zero] at hpos
      exact absurd hpos (Nat.lt_irrefl 0)
    · omega
  rw [hk, hone, Nat.mul_one]

/-! ### What follows from it -/

theorem order_nsmul (P : G1) : Scalar.order • P = 0 := by
  rw [← card_eq]
  exact card_nsmul_eq_zero'

/-- The subgroup test passes at every point of the curve. -/
theorem inSubgroup_eq_true (P : G1) : inSubgroup P = true := by
  rw [inSubgroup, decide_eq_true_eq, CurvePoint.times_eq_nsmul, order_nsmul]

/-- The bytes of a point, and whatever follows them, write that point. -/
theorem ofBytes?_toBytes (P : G1) (rest : List UInt8) :
    G1.ofBytes? (G1.toBytes P ++ rest) = .ok P := by
  simp only [G1.ofBytes?, G1.toBytes, CurvePoint.decompress?_compress, inSubgroup_eq_true, if_true]

theorem smul_eq_nsmul (k : Scalar) (P : G1) : k • P = k.val • P := CurvePoint.times_eq_nsmul _ _

instance module : Module Scalar G1 := Scalar.moduleOfOrder smul_eq_nsmul order_nsmul

instance primeOrder : PrimeOrder G1 where
  card_eq := card_eq
  generator_ne_zero := by decide

end G1

end PlonkKzg
