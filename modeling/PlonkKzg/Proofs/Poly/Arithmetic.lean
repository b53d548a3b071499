import PlonkKzg.Proofs.Poly.Polynomial

/-!
# Arithmetic of stored polynomials

The operations on stored polynomials are those on the polynomials that they stand for.

* `Poly.toPolynomial_zero`, `Poly.toPolynomial_add`, `Poly.toPolynomial_sub`,
  `Poly.toPolynomial_scale` — zero, sums, differences and multiples, with their values
  `Poly.eval_zero`, `Poly.eval_add`, `Poly.eval_sub`, `Poly.eval_scale`;
* `Poly.eval_append_zeros` — zeros at the high end do not change the values;
* `Poly.endValues_cons`, `Poly.polynomialOf_endValues` — the values of the ends of a list are the
  coefficients of a quotient;
* `Poly.divByLinear_eq_ok`, `Poly.eval_of_divByLinear` — quotient and remainder by `X - x`, as
  polynomials and at a point.
-/

namespace PlonkKzg

namespace Poly

open Polynomial

/-! ### Sums and multiples -/

theorem toPolynomial_zero : (0 : Poly).toPolynomial = 0 := by
  show (ofCoefs [0]).toPolynomial = 0
  rw [toPolynomial_ofCoefs, polynomialOf, polynomialOf, zero_mul, zero_add, C_0]

/-- Coefficient by coefficient, where the missing ones of the shorter list are zero. -/
theorem polynomialOf_combine {f : Scalar → Scalar → Scalar} {k : Scalar}
    (hf : ∀ a b, f a b = a + k * b) (as bs : List Scalar) :
    polynomialOf (combine f as bs) = polynomialOf as + C k * polynomialOf bs := by
  fun_induction combine f as bs with
  | case1 => simp [polynomialOf]
  | case2 a as ih => simp [polynomialOf, ih, hf]
  | case3 b bs ih =>
      simp only [polynomialOf, ih, hf, zero_add, C_mul]
      ring
  | case4 a as b bs ih =>
      simp only [polynomialOf, ih, hf, C_add, C_mul]
      ring

/-- Addition of lists is addition of polynomials. -/
theorem toPolynomial_add (p q : Poly) :
    (p + q).toPolynomial = p.toPolynomial + q.toPolynomial := by
  show (ofCoefs (combine (· + ·) p.coefs q.coefs)).toPolynomial = _
  have hsum : ∀ a b : Scalar, a + b = a + 1 * b := fun a b => by rw [one_mul]
  rw [toPolynomial_ofCoefs, polynomialOf_combine hsum, C_1, one_mul]
  rfl

theorem toPolynomial_sub (p q : Poly) :
    (p - q).toPolynomial = p.toPolynomial - q.toPolynomial := by
  show (ofCoefs (combine (· - ·) p.coefs q.coefs)).toPolynomial = _
  have hdifference : ∀ a b : Scalar, a - b = a + -1 * b := fun a b => by ring
  rw [toPolynomial_ofCoefs, polynomialOf_combine hdifference, C_neg, C_1, neg_one_mul,
    ← sub_eq_add_neg]
  rfl

theorem polynomialOf_map_mul (cs : List Scalar) (k : Scalar) :
    polynomialOf (cs.map (· * k)) = C k * polynomialOf cs := by
  induction cs with
  | nil => simp [polynomialOf]
  | cons c cs ih =>
      rw [List.map_cons, polynomialOf, polynomialOf, ih, C_mul]
      ring

/-- Scaling a list scales the polynomial. -/
theorem toPolynomial_scale (k : Scalar) (p : Poly) :
    (scale k p).toPolynomial = C k * p.toPolynomial := by
  rw [scale, toPolynomial_ofCoefs, polynomialOf_map_mul]
  rfl

theorem eval_zero (x : Scalar) : (0 : Poly).eval x = 0 := by
  rw [← eval_toPolynomial, toPolynomial_zero, Polynomial.eval_zero]

theorem eval_add (p q : Poly) (x : Scalar) : (p + q).eval x = p.eval x + q.eval x := by
  rw [← eval_toPolynomial, toPolynomial_add, Polynomial.eval_add, eval_toPolynomial,
    eval_toPolynomial]

theorem eval_sub (p q : Poly) (x : Scalar) : (p - q).eval x = p.eval x - q.eval x := by
  rw [← eval_toPolynomial, toPolynomial_sub, Polynomial.eval_sub, eval_toPolynomial,
    eval_toPolynomial]

theorem eval_scale (k : Scalar) (p : Poly) (x : Scalar) : (scale k p).eval x = k * p.eval x := by
  rw [← eval_toPolynomial, toPolynomial_scale, eval_C_mul, eval_toPolynomial]

/-- Zeros at the end change no value. -/
theorem eval_append_zeros (p : Poly) (n : Nat) (x : Scalar) :
    (Poly.mk (p.coefs ++ List.replicate n 0)).eval x = p.eval x := by
  rw [eval, evalCoefs_append, evalCoefs_replicate_zero, mul_zero, add_zero, ← eval]

/-! ### Division by `X - x` -/

/-- Horner's rule passes through the values of all ends. -/
theorem endValues_cons (x c : Scalar) (cs : List Scalar) :
    endValues x (c :: cs) = evalCoefs (c :: cs) x :: endValues x cs := by
  induction cs generalizing c with
  | nil => simp [endValues, evalCoefs]
  | cons d ds ih =>
      rw [endValues, ih, evalCoefs_cons c, add_comm]

/-- Synthetic division, as an identity of polynomials. -/
theorem polynomialOf_endValues (x c : Scalar) (cs : List Scalar) :
    polynomialOf (c :: cs) =
      polynomialOf (endValues x cs) * (X - C x) + C (evalCoefs (c :: cs) x) := by
  induction cs generalizing c with
  | nil => simp [endValues, polynomialOf, evalCoefs]
  | cons d ds ih =>
      rw [polynomialOf, ih, endValues_cons, polynomialOf, evalCoefs_cons c, C_add, C_mul]
      ring

/-- What the division returns decomposes the polynomial. -/
theorem divByLinear_eq_ok {p q : Poly} {x v : Scalar} (h : p.divByLinear x = .ok (q, v)) :
    v = p.eval x ∧ p.toPolynomial = q.toPolynomial * (X - C x) + C v := by
  obtain ⟨_ | ⟨c, cs⟩⟩ := p
  · cases h
  · simp only [divByLinear, endValues_cons, Except.ok.injEq, Prod.mk.injEq] at h
    obtain ⟨rfl, rfl⟩ := h
    refine ⟨rfl, ?_⟩
    rw [toPolynomial_ofCoefs]
    exact polynomialOf_endValues x c cs

/-- At any point the quotient accounts for the difference of the values there and at `x`. -/
theorem eval_of_divByLinear {p q : Poly} {x v : Scalar} (h : p.divByLinear x = .ok (q, v))
    (s : Scalar) : p.eval s - p.eval x = (s - x) * q.eval s := by
  obtain ⟨rfl, hq⟩ := divByLinear_eq_ok h
  have heval := congrArg (Polynomial.eval s) hq
  simp only [Polynomial.eval_add, eval_mul, Polynomial.eval_sub, eval_X, eval_C,
    eval_toPolynomial] at heval
  rw [heval]
  ring

end Poly

end PlonkKzg
