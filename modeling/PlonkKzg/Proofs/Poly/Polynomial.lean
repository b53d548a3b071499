import Mathlib.Algebra.Polynomial.Eval.Degree
import Mathlib.Data.List.GetD
import Mathlib.LinearAlgebra.Lagrange
import PlonkKzg.Domain.Basic
import PlonkKzg.Poly.Basic
import PlonkKzg.Proofs.Field.Primality

/-!
# Lists of coefficients as polynomials

What a list of coefficients stands for, so that degrees and roots can be counted.

* `Poly.polynomialOf`, `Poly.toPolynomial` — the polynomial of a list, and of a stored polynomial;
* `Poly.eval_toPolynomial` — Horner's rule gives its values;
* `Poly.toPolynomial_ofCoefs` — trimming does not change it;
* `Poly.evalCoefs_append`, `Poly.evalCoefs_zipWith_add`, `Poly.evalCoefs_zipWith_sub`,
  `Poly.evalCoefs_zipWith_geometric` — values of lists that were put together;
* `Poly.eq_of_eval_eq`, `Poly.eq_of_map_eval_eq` — polynomials with few coefficients are equal if they
  agree at enough points.
-/

namespace PlonkKzg

namespace Poly

open Polynomial

noncomputable def polynomialOf : List Scalar → Scalar[X]
  | [] => 0
  | c :: cs => polynomialOf cs * X + C c

/-- The polynomial that is stored. -/
noncomputable def toPolynomial (p : Poly) : Scalar[X] := polynomialOf p.coefs

/-- The evaluation from the highest coefficient down is that of the polynomial. -/
theorem eval_polynomialOf (cs : List Scalar) (x : Scalar) :
    (polynomialOf cs).eval x = evalCoefs cs x := by
  induction cs with
  | nil => exact eval_zero
  | cons c cs ih => rw [polynomialOf, eval_add, eval_mul, eval_X, eval_C, ih, evalCoefs_cons]

@[simp] theorem eval_toPolynomial (p : Poly) (x : Scalar) : p.toPolynomial.eval x = p.eval x :=
  eval_polynomialOf p.coefs x

/-- The coefficients are the entries, and zero past the end. -/
theorem coeff_polynomialOf (cs : List Scalar) (k : Nat) :
    (polynomialOf cs).coeff k = cs.getD k 0 := by
  induction cs generalizing k with
  | nil => simp [polynomialOf]
  | cons c cs ih =>
      cases k with
      | zero => simp [polynomialOf]
      | succ k => simp [polynomialOf, ih]

/-- Lists of one length are equal if they stand for the same polynomial. -/
theorem eq_of_polynomialOf_eq {as bs : List Scalar} (hlen : as.length = bs.length)
    (h : polynomialOf as = polynomialOf bs) : as = bs := by
  refine List.ext_getElem hlen ?_
  intro k ha hb
  have hcoeff := congrArg (·.coeff k) h
  simp only [coeff_polynomialOf] at hcoeff
  rwa [List.getD_eq_getElem _ _ ha, List.getD_eq_getElem _ _ hb] at hcoeff

theorem degree_polynomialOf_lt (cs : List Scalar) : (polynomialOf cs).degree < cs.length := by
  rw [degree_lt_iff_coeff_zero]
  intro k hk
  rw [coeff_polynomialOf, List.getD_eq_default _ _ hk]

theorem degree_toPolynomial_lt {p : Poly} {n : Nat} (h : p.coefs.length ≤ n) :
    p.toPolynomial.degree < n :=
  lt_of_lt_of_le (degree_polynomialOf_lt p.coefs) (by exact_mod_cast h)

/-! ### Trimming -/

theorem polynomialOf_dropZeros (cs : List Scalar) :
    polynomialOf (dropZeros cs) = polynomialOf cs := by
  induction cs with
  | nil => rfl
  | cons c cs ih =>
      rw [dropZeros, polynomialOf, ← ih]
      split
      · rename_i h
        split
        · rename_i hc
          simp [h, hc, polynomialOf]
        · simp [h, polynomialOf]
      · rename_i h
        rw [h]
        rfl

theorem dropZeros_length_le (cs : List Scalar) : (dropZeros cs).length ≤ cs.length := by
  induction cs with
  | nil => exact Nat.le_refl 0
  | cons c cs ih =>
      rw [dropZeros]
      split
      · split
        · exact Nat.zero_le _
        · simp only [List.length_cons, List.length_nil]
          omega
      · rename_i h
        rw [h] at ih
        simpa only [List.length_cons, Nat.add_le_add_iff_right] using ih

/-- Trimming keeps the polynomial. -/
theorem toPolynomial_ofCoefs (cs : List Scalar) : (ofCoefs cs).toPolynomial = polynomialOf cs := by
  rw [← polynomialOf_dropZeros, toPolynomial, ofCoefs]
  split
  · rename_i h
    simp [h, polynomialOf]
  · rename_i h
    rw [h]

theorem eval_ofCoefs (cs : List Scalar) (x : Scalar) : (ofCoefs cs).eval x = evalCoefs cs x := by
  rw [← eval_toPolynomial, toPolynomial_ofCoefs, eval_polynomialOf]

theorem ofCoefs_length_le {cs : List Scalar} {n : Nat} (h : cs.length ≤ n) (hn : 0 < n) :
    (ofCoefs cs).coefs.length ≤ n := by
  have hd := dropZeros_length_le cs
  rw [ofCoefs]
  split
  · exact hn
  · rename_i hcs
    rw [hcs] at hd
    exact Nat.le_trans hd h

/-- A trimmed polynomial stores at least one coefficient. -/
theorem ofCoefs_coefs_ne_nil (cs : List Scalar) : (ofCoefs cs).coefs ≠ [] :=
  (ofCoefs_trimmed cs).1

/-! ### Values of lists that were put together -/

/-- Evaluation of two lists put together. -/
theorem evalCoefs_append (as bs : List Scalar) (x : Scalar) :
    evalCoefs (as ++ bs) x = evalCoefs as x + x ^ as.length * evalCoefs bs x := by
  induction as with
  | nil => simp [evalCoefs]
  | cons a as ih =>
      rw [List.cons_append, evalCoefs_cons, evalCoefs_cons, ih, List.length_cons]
      ring

theorem evalCoefs_replicate_zero (n : Nat) (x : Scalar) :
    evalCoefs (List.replicate n 0) x = 0 := by
  induction n with
  | zero => rfl
  | succ n ih => rw [List.replicate_succ, evalCoefs_cons, ih, zero_mul, zero_add]

theorem evalCoefs_zipWith_add {as bs : List Scalar} (h : as.length = bs.length) (x : Scalar) :
    evalCoefs (List.zipWith (· + ·) as bs) x = evalCoefs as x + evalCoefs bs x := by
  induction as generalizing bs with
  | nil =>
      obtain rfl : bs = [] := List.length_eq_zero_iff.1 h.symm
      simp [evalCoefs]
  | cons a as ih =>
      cases bs with
      | nil => simp at h
      | cons b bs =>
          rw [List.zipWith_cons_cons, evalCoefs_cons, evalCoefs_cons, evalCoefs_cons,
            ih (Nat.succ.inj h)]
          ring

theorem evalCoefs_zipWith_sub {as bs : List Scalar} (h : as.length = bs.length) (x : Scalar) :
    evalCoefs (List.zipWith (· - ·) as bs) x = evalCoefs as x - evalCoefs bs x := by
  induction as generalizing bs with
  | nil =>
      obtain rfl : bs = [] := List.length_eq_zero_iff.1 h.symm
      simp [evalCoefs]
  | cons a as ih =>
      cases bs with
      | nil => simp at h
      | cons b bs =>
          rw [List.zipWith_cons_cons, evalCoefs_cons, evalCoefs_cons, evalCoefs_cons,
            ih (Nat.succ.inj h)]
          ring

/-- Coefficients times the powers of a ratio: the value at the point times the ratio. -/
theorem evalCoefs_zipWith_geometric {as : List Scalar} {n : Nat} (h : as.length = n)
    (start ratio x : Scalar) :
    evalCoefs (List.zipWith (· * ·) as (geometric start ratio n)) x =
      start * evalCoefs as (ratio * x) := by
  subst h
  induction as generalizing start with
  | nil => simp [evalCoefs]
  | cons a as ih =>
      rw [List.length_cons, geometric, List.zipWith_cons_cons, evalCoefs_cons, evalCoefs_cons, ih]
      ring

/-- Evaluation as a sum over the powers. -/
theorem evalCoefs_eq_sum (as : List Scalar) (x : Scalar) :
    evalCoefs as x = ∑ i ∈ Finset.range as.length, as.getD i 0 * x ^ i := by
  induction as with
  | nil => rfl
  | cons a as ih =>
      rw [evalCoefs_cons, List.length_cons, Finset.sum_range_succ', ih, Finset.sum_mul]
      simp [pow_succ, mul_assoc]

/-! ### Equality by values -/

/-- Two polynomials of small degree that agree at as many points are equal. -/
theorem eq_of_eval_eq {p q : Scalar[X]} {points : Finset Scalar} (hp : p.degree < points.card)
    (hq : q.degree < points.card) (h : ∀ x ∈ points, p.eval x = q.eval x) : p = q :=
  Polynomial.eq_of_degrees_lt_of_eval_finset_eq points hp hq h

/-- A polynomial is determined by its values on a list of points. -/
theorem eq_of_map_eval_eq {points : List Scalar} (hnodup : points.Nodup) {p q : Scalar[X]}
    (hp : p.degree < points.length) (hq : q.degree < points.length)
    (h : ∀ x ∈ points, p.eval x = q.eval x) : p = q := by
  have hcard : points.toFinset.card = points.length := List.toFinset_card_of_nodup hnodup
  rw [← hcard] at hp hq
  exact eq_of_eval_eq hp hq fun x hx => h x (List.mem_toFinset.1 hx)

end Poly

end PlonkKzg
