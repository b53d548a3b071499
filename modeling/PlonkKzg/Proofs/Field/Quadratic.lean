import Mathlib.NumberTheory.LegendreSymbol.QuadraticChar.Basic
import Mathlib.Tactic.LinearCombination
import PlonkKzg.Field.Fq2
import PlonkKzg.Proofs.Field.BaseField

/-!
# The quadratic extension is a field

The order of the base field is three modulo four, so minus one is no square and the norm of a pair
is zero for the zero pair only.

* `Fq.neg_one_ne_mul_self` — minus one is no square;
* `Fq2.commRing`, `Fq2.field` — the ring and the field of pairs;
* `Fq.two_ne_zero` — two is not zero, so halves can be taken.
-/

namespace PlonkKzg

namespace Fq

/-- Since the order is three modulo four, minus one is not a square. -/
theorem order_mod_four : order % 4 = 3 := by decide

/-- Minus one is not a square, so adjoining its root gives a field. -/
theorem neg_one_ne_mul_self (a : Fq) : a * a ≠ -1 := by
  intro h
  have hmod := (FiniteField.isSquare_neg_one_iff (F := Fq)).1 ⟨a, h.symm⟩
  have hcard : Fintype.card Fq = order := Residue.card_eq
  rw [hcard] at hmod
  exact hmod order_mod_four

/-- A sum of two squares is zero only if both are. -/
theorem mul_self_add_mul_self_eq_zero {a b : Fq} (h : a * a + b * b = 0) : a = 0 ∧ b = 0 := by
  have hb : b = 0 := by
    by_contra hb
    refine neg_one_ne_mul_self (a * b⁻¹) ?_
    have hinv := mul_inv_cancel₀ hb
    linear_combination (b⁻¹ * b⁻¹) * h - (b * b⁻¹ + 1) * hinv
  rw [hb, mul_zero, add_zero, mul_self_eq_zero] at h
  exact ⟨h, hb⟩

/-- The negative of a square is a square only for zero. -/
theorem sqrt?_neg_mul_self {a : Fq} (ha : a ≠ 0) : sqrt? (-(a * a)) = none := by
  cases hroot : sqrt? (-(a * a)) with
  | none => rfl
  | some z =>
      have hz := mul_self_of_sqrt? hroot
      exact absurd (mul_self_add_mul_self_eq_zero (a := z) (b := a) (by rw [hz]; ring)).2 ha

theorem two_ne_zero : (ofNat 2 : Fq) ≠ 0 := by decide

end Fq

namespace Fq2

/-! ### The coefficients of the results -/

@[simp] theorem c0_zero : (0 : Fq2).c0 = 0 := rfl

@[simp] theorem c1_zero : (0 : Fq2).c1 = 0 := rfl

@[simp] theorem c0_one : (1 : Fq2).c0 = 1 := rfl

@[simp] theorem c1_one : (1 : Fq2).c1 = 0 := rfl

@[simp] theorem c0_add (a b : Fq2) : (a + b).c0 = a.c0 + b.c0 := rfl

@[simp] theorem c1_add (a b : Fq2) : (a + b).c1 = a.c1 + b.c1 := rfl

@[simp] theorem c0_sub (a b : Fq2) : (a - b).c0 = a.c0 - b.c0 := rfl

@[simp] theorem c1_sub (a b : Fq2) : (a - b).c1 = a.c1 - b.c1 := rfl

@[simp] theorem c0_neg (a : Fq2) : (-a).c0 = -a.c0 := rfl

@[simp] theorem c1_neg (a : Fq2) : (-a).c1 = -a.c1 := rfl

@[simp] theorem c0_mul (a b : Fq2) : (a * b).c0 = a.c0 * b.c0 - a.c1 * b.c1 := rfl

/-- The third product is the sum of the mixed ones. -/
@[simp] theorem c1_mul (a b : Fq2) : (a * b).c1 = a.c0 * b.c1 + a.c1 * b.c0 := by
  show (a.c0 + a.c1) * (b.c0 + b.c1) - a.c0 * b.c0 - a.c1 * b.c1 = _
  ring

@[simp] theorem c0_inv (a : Fq2) : (a⁻¹).c0 = a.norm⁻¹ * a.c0 := rfl

@[simp] theorem c1_inv (a : Fq2) : (a⁻¹).c1 = a.norm⁻¹ * -a.c1 := rfl

/-! ### The field -/

instance commRing : CommRing Fq2 where
  add_assoc a b c := by ext1 <;> simp [add_assoc]
  zero_add a := by ext1 <;> simp
  add_zero a := by ext1 <;> simp
  add_comm a b := by ext1 <;> simp [add_comm]
  mul_assoc a b c := by ext1 <;> simp only [c0_mul, c1_mul] <;> ring
  one_mul a := by ext1 <;> simp
  mul_one a := by ext1 <;> simp
  mul_comm a b := by ext1 <;> simp only [c0_mul, c1_mul] <;> ring
  left_distrib a b c := by ext1 <;> simp only [c0_mul, c1_mul, c0_add, c1_add] <;> ring
  right_distrib a b c := by ext1 <;> simp only [c0_mul, c1_mul, c0_add, c1_add] <;> ring
  zero_mul a := by ext1 <;> simp
  mul_zero a := by ext1 <;> simp
  neg_add_cancel a := by ext1 <;> simp
  sub_eq_add_neg a b := by ext1 <;> simp [sub_eq_add_neg]
  nsmul := nsmulRec
  zsmul := zsmulRec

/-- Only zero has norm zero. -/
theorem norm_eq_zero_iff (a : Fq2) : a.norm = 0 ↔ a = 0 := by
  constructor
  · intro h
    obtain ⟨h0, h1⟩ := Fq.mul_self_add_mul_self_eq_zero h
    exact Fq2.ext h0 h1
  · rintro rfl
    simp [norm]

/-- The inverse of the quadratic extension, from the norm. -/
theorem mul_inv {a : Fq2} (ha : a ≠ 0) : a * a⁻¹ = 1 := by
  have hnorm := mul_inv_cancel₀ (mt (norm_eq_zero_iff a).1 ha)
  rw [norm] at hnorm
  ext1
  · rw [c0_mul, c0_inv, c1_inv, c0_one, norm]
    linear_combination hnorm
  · rw [c1_mul, c0_inv, c1_inv, c1_one]
    ring

instance field : Field Fq2 where
  exists_pair_ne := ⟨1, 0, fun h => one_ne_zero (congrArg c0 h)⟩
  mul_inv_cancel _ ha := mul_inv ha
  inv_zero := by ext1 <;> simp
  nnqsmul := _
  nnqsmul_def _ _ := rfl
  qsmul := _
  qsmul_def _ _ := rfl

end Fq2

end PlonkKzg
