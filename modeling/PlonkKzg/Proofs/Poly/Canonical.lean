import PlonkKzg.Proofs.Poly.Arithmetic
import PlonkKzg.Proofs.Poly.Trimmed

/-!
# Arithmetic in trimmed form

Sums, differences and multiples of stored polynomials are trimmed, whatever zeros the operands store
at their high end, and have the coefficients and the values that they should have. A trimmed
polynomial is known from its coefficients, so the laws of addition hold for the stored lists.

* `Poly.coeff_toPolynomial`, `Poly.toPolynomial_eq_iff` — a stored polynomial by its coefficients;
* `Poly.add_trimmed`, `Poly.sub_trimmed`, `Poly.scale_trimmed` — results are trimmed;
* `Poly.coef_ofCoefs`, `Poly.coef_add`, `Poly.coef_sub`, `Poly.coef_scale` — their coefficients;
* `Poly.Trimmed.eq_iff` — equality of trimmed polynomials;
* `Poly.addCommSemigroup`, `Poly.Trimmed.add_sub_self`, `Poly.self_sub_self`, `Poly.scale_sum` — laws
  of addition;
* `Poly.CanonicalFor`, `Poly.arithmetic_canonical` — what an operation has to give, and that all do.
-/

namespace PlonkKzg

namespace Poly

open Polynomial

/-! ### Coefficients -/

theorem coeff_toPolynomial (p : Poly) (k : Nat) : p.toPolynomial.coeff k = p.coef k :=
  coeff_polynomialOf p.coefs k

/-- Two lists stand for one polynomial when all their coefficients agree. -/
theorem toPolynomial_eq_iff {p q : Poly} :
    p.toPolynomial = q.toPolynomial ↔ ∀ k, p.coef k = q.coef k := by
  simp only [Polynomial.ext_iff, coeff_toPolynomial]

theorem coef_ofCoefs (cs : List Scalar) (k : Nat) : (ofCoefs cs).coef k = cs.getD k 0 := by
  rw [← coeff_toPolynomial, toPolynomial_ofCoefs, coeff_polynomialOf]

theorem coef_add (p q : Poly) (k : Nat) : (p + q).coef k = p.coef k + q.coef k := by
  simp only [← coeff_toPolynomial, toPolynomial_add, coeff_add]

theorem coef_sub (p q : Poly) (k : Nat) : (p - q).coef k = p.coef k - q.coef k := by
  simp only [← coeff_toPolynomial, toPolynomial_sub, coeff_sub]

theorem coef_scale (c : Scalar) (p : Poly) (k : Nat) : (scale c p).coef k = c * p.coef k := by
  simp only [← coeff_toPolynomial, toPolynomial_scale, coeff_C_mul]

/-! ### Trimmed results -/

/-- The zero of the program is trimmed. -/
theorem zero_trimmed : (0 : Poly).Trimmed := ofCoefs_trimmed [0]

/-- A sum is trimmed whatever the summands are. -/
theorem add_trimmed (p q : Poly) : (p + q).Trimmed := ofCoefs_trimmed _

theorem sub_trimmed (p q : Poly) : (p - q).Trimmed := ofCoefs_trimmed _

theorem scale_trimmed (c : Scalar) (p : Poly) : (scale c p).Trimmed := ofCoefs_trimmed _

/-- Trimmed polynomials are equal if no coefficient tells them apart. -/
theorem Trimmed.eq_iff {p q : Poly} (hp : p.Trimmed) (hq : q.Trimmed) :
    p = q ↔ ∀ k, p.coef k = q.coef k := by
  constructor
  · rintro rfl k
    rfl
  · intro h
    exact hp.eq hq (toPolynomial_eq_iff.2 h)

/-! ### Laws of addition -/

/-- There is no neutral element, as adding zero trims. -/
instance addCommSemigroup : AddCommSemigroup Poly where
  add_assoc p q r := by
    apply (add_trimmed (p + q) r).eq (add_trimmed p (q + r))
    simp only [toPolynomial_add, add_assoc]
  add_comm p q := by
    apply (add_trimmed p q).eq (add_trimmed q p)
    simp only [toPolynomial_add, add_comm]

/-- Subtracting what was added gives back a trimmed polynomial, and not just its values. -/
theorem Trimmed.add_sub_self {p : Poly} (hp : p.Trimmed) (q : Poly) : p + q - q = p := by
  apply (sub_trimmed (p + q) q).eq hp
  rw [toPolynomial_sub, toPolynomial_add, add_sub_cancel_right]

theorem self_sub_self (p : Poly) : p - p = 0 := by
  apply (sub_trimmed p p).eq zero_trimmed
  rw [toPolynomial_sub, toPolynomial_zero, sub_self]

theorem scale_sum (c : Scalar) (p q : Poly) : scale c (p + q) = scale c p + scale c q := by
  apply (scale_trimmed c (p + q)).eq (add_trimmed (scale c p) (scale c q))
  simp only [toPolynomial_scale, toPolynomial_add, mul_add]

/-- The trimmed polynomial with given coefficients, and with given values at all points. -/
structure CanonicalFor (p : Poly) (coefficient : Nat → Scalar) (value : Scalar → Scalar) : Prop where
  trimmed : p.Trimmed
  coef : ∀ k, p.coef k = coefficient k
  eval : ∀ x, p.eval x = value x

/-- All operations give trimmed polynomials with the coefficients and the values that are asked for,
and on trimmed polynomials, which are equal if their coefficients are, the laws of addition hold. -/
theorem arithmetic_canonical :
    (∀ cs : List Scalar, (ofCoefs cs).CanonicalFor (Poly.mk cs).coef (Poly.mk cs).eval) ∧
    (∀ p q : Poly, (p + q).CanonicalFor (fun k => p.coef k + q.coef k)
      fun x => p.eval x + q.eval x) ∧
    (∀ p q : Poly, (p - q).CanonicalFor (fun k => p.coef k - q.coef k)
      fun x => p.eval x - q.eval x) ∧
    (∀ (c : Scalar) (p : Poly), (scale c p).CanonicalFor (fun k => c * p.coef k)
      fun x => c * p.eval x) ∧
    (∀ p q : Poly, p.Trimmed → q.Trimmed → (p = q ↔ ∀ k, p.coef k = q.coef k)) ∧
    (∀ p q : Poly, p + q = q + p) ∧
    (∀ p q r : Poly, p + q + r = p + (q + r)) ∧
    (∀ p q : Poly, p.Trimmed → p + q - q = p) ∧
    (∀ p : Poly, p - p = 0) ∧
    ∀ (c : Scalar) (p q : Poly), scale c (p + q) = scale c p + scale c q := by
  refine ⟨?_, ?_, ?_, ?_, fun p q hp hq => hp.eq_iff hq, add_comm, add_assoc,
    fun p q hp => hp.add_sub_self q, self_sub_self, scale_sum⟩
  · intro cs
    exact ⟨ofCoefs_trimmed cs, coef_ofCoefs cs, eval_ofCoefs cs⟩
  · intro p q
    exact ⟨add_trimmed p q, coef_add p q, eval_add p q⟩
  · intro p q
    exact ⟨sub_trimmed p q, coef_sub p q, eval_sub p q⟩
  · intro c p
    exact ⟨scale_trimmed c p, coef_scale c p, eval_scale c p⟩

example : (⟨[1, 2]⟩ : Poly) - ⟨[0, 2, 0]⟩ = ⟨[1]⟩ := by cbv

end Poly

end PlonkKzg
