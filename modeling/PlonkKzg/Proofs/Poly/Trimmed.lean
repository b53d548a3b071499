import PlonkKzg.Proofs.Poly.Polynomial

/-!
# Trimmed polynomials

A polynomial has one trimmed form, so that trimmed polynomials are equal as stored lists if they are
the same polynomial.

* `Poly.dropZeros_eq_nil_iff`, `Poly.dropZeros_eq_iff` — what is left of a list without its high
  zeros depends on the polynomial only;
* `Poly.ofCoefs_eq_iff` — and so does the trimmed form;
* `Poly.Trimmed.ofCoefs_coefs`, `Poly.Trimmed.eq` — trimmed polynomials are their own trimmed form;
* `Poly.Interpolates` — the trimmed polynomial with given values and not more coefficients than
  there are points.
-/

namespace PlonkKzg

namespace Poly

open Polynomial

theorem dropZeros_eq_nil_iff (cs : List Scalar) : dropZeros cs = [] ↔ polynomialOf cs = 0 := by
  constructor
  · intro h
    rw [← polynomialOf_dropZeros, h, polynomialOf]
  · intro h
    by_contra hne
    -- The last coefficient that is left is not zero, but it is one of the zero polynomial.
    have hlast := getLast?_dropZeros cs
    rw [← polynomialOf_dropZeros] at h
    have hcoeff := coeff_polynomialOf (dropZeros cs) ((dropZeros cs).length - 1)
    have hlt : (dropZeros cs).length - 1 < (dropZeros cs).length :=
      Nat.sub_lt (List.length_pos_iff.2 hne) Nat.one_pos
    rw [h, coeff_zero, List.getD_eq_getElem _ _ hlt, ← List.getLast_eq_getElem hne] at hcoeff
    rw [List.getLast?_eq_some_getLast hne, ← hcoeff] at hlast
    exact hlast rfl

theorem polynomialOf_cons_eq_iff {a b : Scalar} {as bs : List Scalar} :
    polynomialOf (a :: as) = polynomialOf (b :: bs) ↔ a = b ∧ polynomialOf as = polynomialOf bs := by
  constructor
  · intro h
    have hlow : a = b := by simpa [coeff_polynomialOf] using congrArg (·.coeff 0) h
    refine ⟨hlow, Polynomial.ext fun k => ?_⟩
    simpa [coeff_polynomialOf] using congrArg (·.coeff (k + 1)) h
  · rintro ⟨rfl, h⟩
    rw [polynomialOf, polynomialOf, h]

/-- Without their zeros at the end, lists of one polynomial are equal. -/
theorem dropZeros_eq_iff {as bs : List Scalar} :
    dropZeros as = dropZeros bs ↔ polynomialOf as = polynomialOf bs := by
  constructor
  · intro h
    rw [← polynomialOf_dropZeros as, h, polynomialOf_dropZeros]
  · intro h
    induction as generalizing bs with
    | nil => exact ((dropZeros_eq_nil_iff bs).2 h.symm).symm
    | cons a as ih =>
        cases bs with
        | nil => exact (dropZeros_eq_nil_iff (a :: as)).2 h
        | cons b bs =>
            obtain ⟨rfl, hrest⟩ := polynomialOf_cons_eq_iff.1 h
            rw [dropZeros, dropZeros, ih hrest]

/-- Trimming picks one list for each polynomial. -/
theorem ofCoefs_eq_iff {as bs : List Scalar} :
    ofCoefs as = ofCoefs bs ↔ polynomialOf as = polynomialOf bs := by
  constructor
  · intro h
    rw [← toPolynomial_ofCoefs, h, toPolynomial_ofCoefs]
  · intro h
    rw [ofCoefs, ofCoefs, dropZeros_eq_iff.2 h]

/-! ### Trimmed polynomials -/

theorem dropZeros_of_getLast?_ne {cs : List Scalar} (h : cs.getLast? ≠ some 0) :
    dropZeros cs = cs := by
  induction cs with
  | nil => rfl
  | cons c cs ih =>
      cases cs with
      | nil =>
          have hc : c ≠ 0 := fun hzero => h (by rw [hzero, List.getLast?_singleton])
          rw [dropZeros, dropZeros, if_neg hc]
      | cons d ds =>
          rw [List.getLast?_cons_cons] at h
          rw [dropZeros, ih h]

variable {p q : Poly}

theorem Trimmed.ofCoefs_coefs (h : p.Trimmed) : ofCoefs p.coefs = p := by
  obtain ⟨hne, hone | hlast⟩ := h
  · obtain ⟨c, hc⟩ := List.length_eq_one_iff.1 hone
    apply Poly.ext
    rw [hc, ofCoefs, dropZeros, dropZeros]
    by_cases hzero : c = 0
    · rw [if_pos hzero, hzero]
    · rw [if_neg hzero]
  · obtain ⟨c, cs, hcs⟩ := List.exists_cons_of_ne_nil hne
    apply Poly.ext
    rw [ofCoefs, dropZeros_of_getLast?_ne hlast, hcs]

/-- Trimmed lists of one polynomial are equal. -/
theorem Trimmed.eq (hp : p.Trimmed) (hq : q.Trimmed) (h : p.toPolynomial = q.toPolynomial) :
    p = q := by
  rw [← hp.ofCoefs_coefs, ← hq.ofCoefs_coefs]
  exact ofCoefs_eq_iff.2 h

/-! ### Interpolation -/

/-- A trimmed polynomial that has given values, with at most as many coefficients as there are
points. -/
structure Interpolates (p : Poly) (points values : List Scalar) : Prop where
  trimmed : p.Trimmed
  length_le : p.coefs.length ≤ points.length
  values : points.map p.eval = values

/-- There is only one at different points. -/
theorem Interpolates.unique {points values : List Scalar} (hnodup : points.Nodup)
    (hp : p.Interpolates points values) (hq : q.Interpolates points values) : p = q := by
  refine hp.trimmed.eq hq.trimmed (eq_of_map_eval_eq hnodup (degree_toPolynomial_lt hp.length_le)
    (degree_toPolynomial_lt hq.length_le) ?_)
  intro x hx
  rw [eval_toPolynomial, eval_toPolynomial]
  exact List.map_inj_left.1 (hp.values.trans hq.values.symm) x hx

/-- Trimming keeps the values. -/
theorem ofCoefs_interpolates {points : List Scalar} (hlen : p.coefs.length ≤ points.length)
    (hpos : 0 < points.length) :
    (ofCoefs p.coefs).Interpolates points (points.map p.eval) where
  trimmed := ofCoefs_trimmed p.coefs
  length_le := ofCoefs_length_le hlen hpos
  values := List.map_congr_left fun x _ => eval_ofCoefs p.coefs x

end Poly

end PlonkKzg
