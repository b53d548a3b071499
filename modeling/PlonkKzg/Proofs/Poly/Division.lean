import PlonkKzg.Proofs.Poly.Canonical

/-!
# Exact division by `X - x`

Division by `X - x` gives the one trimmed quotient and the one remainder that there are, whatever
zeros the polynomial stores at its high end.

* `Poly.Decomposes` — a polynomial is `q * (X - x) + v`, coefficient by coefficient;
* `Poly.Decomposes.remainder_eq`, `Poly.Decomposes.unique` — what the parts have to be;
* `Poly.Trimmed.natDegree_toPolynomial`, `Poly.Decomposes.degree_add_one` — the degree of the
  quotient;
* `Poly.divByLinear_eq_ok_iff`, `Poly.divByLinear_length_le` — what division gives;
* `Poly.divByLinear_exact` — all of it.
-/

namespace PlonkKzg

namespace Poly

open Polynomial

/-! ### Quotients and remainders -/

/-- The polynomial is `q * (X - x) + v`, coefficient by coefficient. -/
structure Decomposes (p : Poly) (x : Scalar) (q : Poly) (v : Scalar) : Prop where
  low : p.coef 0 = v - x * q.coef 0
  high : ∀ k, p.coef (k + 1) = q.coef k - x * q.coef (k + 1)

variable {p q q' : Poly} {x v v' : Scalar}

/-- The decomposition, read as an identity of polynomials. -/
theorem decomposes_iff :
    p.Decomposes x q v ↔ p.toPolynomial = q.toPolynomial * (X - C x) + C v := by
  have hlow : (q.toPolynomial * (X - C x) + C v).coeff 0 = v - x * q.coef 0 := by
    rw [coeff_add, mul_coeff_zero, coeff_sub, coeff_X_zero, coeff_C_zero, coeff_C_zero,
      coeff_toPolynomial]
    ring
  have hhigh : ∀ k, (q.toPolynomial * (X - C x) + C v).coeff (k + 1) =
      q.coef k - x * q.coef (k + 1) := by
    intro k
    rw [coeff_add, coeff_mul_X_sub_C, coeff_C_succ, coeff_toPolynomial, coeff_toPolynomial]
    ring
  rw [Polynomial.ext_iff]
  constructor
  · intro h k
    cases k with
    | zero => rw [coeff_toPolynomial, h.low, hlow]
    | succ k => rw [coeff_toPolynomial, h.high, hhigh]
  · intro h
    refine ⟨?_, fun k => ?_⟩
    · rw [← hlow, ← h, coeff_toPolynomial]
    · rw [← hhigh, ← h, coeff_toPolynomial]

/-- At `x` only the remainder is left. -/
theorem Decomposes.remainder_eq (h : p.Decomposes x q v) : v = p.eval x := by
  have heval := congrArg (Polynomial.eval x) (decomposes_iff.1 h)
  rw [Polynomial.eval_add, eval_mul, Polynomial.eval_sub, eval_X, eval_C, eval_C, sub_self,
    mul_zero, zero_add, eval_toPolynomial] at heval
  exact heval.symm

/-- Quotient and remainder are determined. -/
theorem Decomposes.unique (h : p.Decomposes x q v) (h' : p.Decomposes x q' v') :
    q.toPolynomial = q'.toPolynomial ∧ v = v' := by
  have hv : v = v' := h.remainder_eq.trans h'.remainder_eq.symm
  have hsame := (decomposes_iff.1 h).symm.trans (decomposes_iff.1 h')
  rw [hv, add_left_inj] at hsame
  exact ⟨mul_right_cancel₀ (X_sub_C_ne_zero x) hsame, hv⟩

/-! ### Degrees -/

/-- The stored degree of a trimmed polynomial is its degree. -/
theorem Trimmed.natDegree_toPolynomial (hp : p.Trimmed) : p.toPolynomial.natDegree = p.degree := by
  obtain ⟨hne, hone | hlast⟩ := hp
  · obtain ⟨c, hc⟩ := List.length_eq_one_iff.1 hone
    simp [toPolynomial, degree, hc, polynomialOf]
  · have hlt : p.degree < p.coefs.length := Nat.sub_lt (List.length_pos_iff.2 hne) Nat.one_pos
    refine natDegree_eq_of_le_of_coeff_ne_zero ?_ ?_
    · rw [natDegree_le_iff_coeff_eq_zero]
      intro k hk
      rw [coeff_toPolynomial, coef, List.getD_eq_default _ _ (by rw [degree] at hk; omega)]
    · intro hzero
      rw [coeff_toPolynomial, coef, List.getD_eq_getElem _ _ hlt] at hzero
      rw [List.getLast?_eq_getElem?, ← degree, List.getElem?_eq_getElem hlt] at hlast
      exact hlast (congrArg some hzero)

/-- The quotient of a polynomial that is not constant has one degree less. -/
theorem Decomposes.degree_add_one (h : p.Decomposes x q v) (hp : p.Trimmed) (hq : q.Trimmed)
    (hpos : 0 < p.degree) : q.degree + 1 = p.degree := by
  have hsplit := decomposes_iff.1 h
  have hquotient : q.toPolynomial ≠ 0 := by
    intro hzero
    rw [hzero, zero_mul, zero_add] at hsplit
    rw [← hp.natDegree_toPolynomial, hsplit, natDegree_C] at hpos
    exact Nat.lt_irrefl 0 hpos
  rw [← hp.natDegree_toPolynomial, ← hq.natDegree_toPolynomial, hsplit, natDegree_add_C,
    natDegree_mul hquotient (X_sub_C_ne_zero x), natDegree_X_sub_C]

/-! ### The result of the division -/

/-- On a nonempty list the division always succeeds. -/
theorem divByLinear_cons (c : Scalar) (cs : List Scalar) (x : Scalar) :
    (Poly.mk (c :: cs)).divByLinear x =
      .ok (ofCoefs (endValues x cs), (Poly.mk (c :: cs)).eval x) := by
  simp only [divByLinear, endValues_cons, eval]

/-- It returns the one decomposition whose quotient is trimmed. -/
theorem divByLinear_eq_ok_iff (hne : p.coefs ≠ []) :
    p.divByLinear x = .ok (q, v) ↔ q.Trimmed ∧ p.Decomposes x q v := by
  obtain ⟨_ | ⟨c, cs⟩⟩ := p
  · exact absurd rfl hne
  have hdiv := divByLinear_cons c cs x
  have htrimmed := ofCoefs_trimmed (endValues x cs)
  have hparts := decomposes_iff.2 (divByLinear_eq_ok hdiv).2
  constructor
  · intro h
    obtain ⟨rfl, rfl⟩ := Prod.mk.inj (Except.ok.inj (hdiv.symm.trans h))
    exact ⟨htrimmed, hparts⟩
  · rintro ⟨hq, h⟩
    obtain ⟨hquotient, hv⟩ := hparts.unique h
    rw [hdiv, htrimmed.eq hq hquotient, hv]

/-- The quotient is shorter by one, down to a single coefficient. -/
theorem divByLinear_length_le (h : p.divByLinear x = .ok (q, v)) :
    q.coefs.length ≤ max 1 (p.coefs.length - 1) := by
  obtain ⟨_ | ⟨c, cs⟩⟩ := p
  · cases h
  rw [divByLinear_cons] at h
  obtain ⟨rfl, -⟩ := Prod.mk.inj (Except.ok.inj h)
  refine ofCoefs_length_le ?_ (Nat.lt_of_lt_of_le Nat.one_pos (Nat.le_max_left ..))
  rw [endValues_length, List.length_cons, Nat.add_sub_cancel]
  exact Nat.le_max_right ..

/-- Every polynomial with stored coefficients has a quotient by `X - x` and a remainder. Both are the
only ones there are; the quotient is trimmed, and shorter than the polynomial unless that is a
constant. -/
theorem divByLinear_exact {p : Poly} (hne : p.coefs ≠ []) (x : Scalar) :
    ∃ q v, p.divByLinear x = .ok (q, v) ∧ p.Decomposes x q v ∧ v = p.eval x ∧ q.Trimmed ∧
      q.coefs.length ≤ max 1 (p.coefs.length - 1) ∧
      (p.Trimmed → 0 < p.degree → q.degree + 1 = p.degree) ∧
      ∀ (q' : Poly) (v' : Scalar), q'.Trimmed → p.Decomposes x q' v' → q' = q ∧ v' = v := by
  obtain ⟨q, v, hdiv⟩ := divByLinear_isOk hne x
  obtain ⟨hq, hparts⟩ := (divByLinear_eq_ok_iff hne).1 hdiv
  refine ⟨q, v, hdiv, hparts, hparts.remainder_eq, hq, divByLinear_length_le hdiv,
    fun hp => hparts.degree_add_one hp hq, fun q' v' hq' h' => ?_⟩
  have hsame := hdiv.symm.trans ((divByLinear_eq_ok_iff hne).2 ⟨hq', h'⟩)
  obtain ⟨rfl, rfl⟩ := Prod.mk.inj (Except.ok.inj hsame)
  exact ⟨rfl, rfl⟩

/-- `X ^ 2 + 2 X + 1 = (X + 3) (X - 1) + 4`. -/
theorem divByLinear_exact_square : ∃ p q : Poly, p = ⟨[1, .ofNat 2, 1]⟩ ∧ q = ⟨[.ofNat 3, 1]⟩ ∧
    p.coefs ≠ [] ∧ p.Trimmed ∧ p.divByLinear 1 = .ok (q, .ofNat 4) ∧
    p.Decomposes 1 q (.ofNat 4) ∧ .ofNat 4 = p.eval 1 ∧ q.Trimmed ∧
    q.coefs.length ≤ max 1 (p.coefs.length - 1) ∧
    (p.Trimmed → 0 < p.degree → q.degree + 1 = p.degree) ∧
    ∀ (q' : Poly) (v' : Scalar), q'.Trimmed → p.Decomposes 1 q' v' → q' = q ∧ v' = .ofNat 4 := by
  have hne : (⟨[1, .ofNat 2, 1]⟩ : Poly).coefs ≠ [] := List.cons_ne_nil _ _
  have htrimmed : (⟨[1, .ofNat 2, 1]⟩ : Poly).Trimmed := ⟨hne, .inr (by decide)⟩
  have hvalue : (⟨[1, .ofNat 2, 1]⟩ : Poly).divByLinear 1 = .ok (⟨[.ofNat 3, 1]⟩, .ofNat 4) := by
    decide
  obtain ⟨q, v, hdiv, hconclusion⟩ := divByLinear_exact hne 1
  obtain ⟨rfl, rfl⟩ := Prod.mk.inj (Except.ok.inj (hdiv.symm.trans hvalue))
  exact ⟨_, _, rfl, rfl, hne, htrimmed, hdiv, hconclusion⟩

end Poly

end PlonkKzg
