import PlonkKzg.Proofs.Poly.Division

/-!
# Zeros at the high end

A polynomial that was read from outside may store zeros at its high end, or nothing at all. Its
values, quotients and remainders do not show the zeros. The degree and the test for zero are read off
the stored list, and without a stored coefficient there is no division.

* `Poly.length_ofCoefs_eq_iff`, `Poly.degree_eq_degree_ofCoefs_iff` — lists that trimming makes
  shorter have another degree;
* `Poly.isZero_iff`, `Poly.isZero_ofCoefs_iff`, `Poly.isZero_eq_isZero_ofCoefs_iff` — two zeros or
  more do not count as zero;
* `Poly.divByLinear_ofCoefs`, `Poly.misused_divByLinear_iff` — division.
-/

namespace PlonkKzg

/-- An operation was used against its preconditions. -/
def Misused {α : Type} (r : Except Fault α) : Prop := ∃ broken, r = .error (.misuse broken)

namespace Poly

open Polynomial

variable {cs : List Scalar} {x : Scalar}

/-! ### Degrees -/

theorem length_ofCoefs_le (hne : cs ≠ []) : (ofCoefs cs).coefs.length ≤ cs.length :=
  ofCoefs_length_le (Nat.le_refl _) (List.length_pos_iff.2 hne)

theorem degree_ofCoefs_le (cs : List Scalar) : (ofCoefs cs).degree ≤ (Poly.mk cs).degree := by
  by_cases hne : cs = []
  · rw [hne]
    rfl
  · exact Nat.sub_le_sub_right (length_ofCoefs_le hne) 1

/-- Trimming keeps the length only of a trimmed list. -/
theorem length_ofCoefs_eq_iff : (ofCoefs cs).coefs.length = cs.length ↔ (Poly.mk cs).Trimmed := by
  constructor
  · intro h
    have hsame : (ofCoefs cs).coefs = cs := eq_of_polynomialOf_eq h (toPolynomial_ofCoefs cs)
    have htrimmed := ofCoefs_trimmed cs
    rwa [show ofCoefs cs = Poly.mk cs from Poly.ext hsame] at htrimmed
  · intro h
    rw [h.ofCoefs_coefs]

/-- The stored degree is the true one exactly for the empty and the trimmed lists. -/
theorem degree_eq_degree_ofCoefs_iff :
    (Poly.mk cs).degree = (ofCoefs cs).degree ↔ cs = [] ∨ (Poly.mk cs).Trimmed := by
  by_cases hne : cs = []
  · rw [hne]
    exact iff_of_true rfl (.inl rfl)
  · have hpos := List.length_pos_iff.2 hne
    have hpos' := List.length_pos_iff.2 (ofCoefs_coefs_ne_nil cs)
    rw [or_iff_right hne, ← length_ofCoefs_eq_iff, degree, degree]
    dsimp only
    omega

/-! ### The test for zero -/

/-- The test for zero asks for at most one stored coefficient. -/
theorem isZero_iff {p : Poly} : p.isZero = true ↔ p.coefs.length ≤ 1 ∧ ∀ c ∈ p.coefs, c = 0 := by
  obtain ⟨_ | ⟨c, _ | ⟨d, ds⟩⟩⟩ := p <;> simp [isZero]

theorem polynomialOf_eq_zero_iff : polynomialOf cs = 0 ↔ ∀ c ∈ cs, c = 0 := by
  induction cs with
  | nil => simp [polynomialOf]
  | cons c cs ih =>
      have hzero : polynomialOf (0 :: [] : List Scalar) = 0 := by simp [polynomialOf]
      rw [← hzero, polynomialOf_cons_eq_iff, List.forall_mem_cons, ← ih]
      rfl

theorem isZero_ofCoefs_iff : (ofCoefs cs).isZero = true ↔ ∀ c ∈ cs, c = 0 := by
  rw [← polynomialOf_eq_zero_iff, ← toPolynomial_ofCoefs, isZero_iff, toPolynomial,
    polynomialOf_eq_zero_iff, and_iff_right_iff_imp]
  intro hzero
  obtain ⟨-, hone | hlast⟩ := ofCoefs_trimmed cs
  · exact hone.le
  · refine absurd ?_ hlast
    rw [List.getLast?_eq_some_getLast (ofCoefs_coefs_ne_nil cs),
      hzero _ (List.getLast_mem (ofCoefs_coefs_ne_nil cs))]

/-- The test for zero is wrong exactly on two or more stored zeros. -/
theorem isZero_eq_isZero_ofCoefs_iff :
    (Poly.mk cs).isZero = (ofCoefs cs).isZero ↔ cs.length ≤ 1 ∨ ∃ c ∈ cs, c ≠ 0 := by
  rw [Bool.eq_iff_iff, isZero_iff, isZero_ofCoefs_iff, and_iff_right_iff_imp, imp_iff_or_not]
  simp only [not_forall, exists_prop, ne_eq]

/-! ### Division -/

theorem decomposes_ofCoefs_iff {q : Poly} {v : Scalar} :
    (ofCoefs cs).Decomposes x q v ↔ (Poly.mk cs).Decomposes x q v := by
  rw [decomposes_iff, decomposes_iff, toPolynomial_ofCoefs]
  rfl

/-- Trimming first does not change a division that succeeds. -/
theorem divByLinear_ofCoefs (hne : cs ≠ []) (x : Scalar) :
    (ofCoefs cs).divByLinear x = (Poly.mk cs).divByLinear x := by
  have hne' : (Poly.mk cs).coefs ≠ [] := hne
  obtain ⟨q, v, hdiv⟩ := divByLinear_isOk hne' x
  rw [hdiv, divByLinear_eq_ok_iff (ofCoefs_coefs_ne_nil cs), decomposes_ofCoefs_iff]
  exact (divByLinear_eq_ok_iff hne').1 hdiv

/-- Only the empty list is a misuse of the division. -/
theorem misused_divByLinear_iff {p : Poly} : Misused (p.divByLinear x) ↔ p.coefs = [] := by
  constructor
  · rintro ⟨broken, h⟩
    by_contra hne
    obtain ⟨q, v, hdiv⟩ := divByLinear_isOk hne x
    rw [hdiv] at h
    cases h
  · intro h
    exact ⟨.noCoefficients, by rw [divByLinear, h, endValues]⟩

theorem divByLinear_eq_divByLinear_ofCoefs_iff :
    (Poly.mk cs).divByLinear x = (ofCoefs cs).divByLinear x ↔ cs ≠ [] := by
  refine ⟨?_, fun hne => (divByLinear_ofCoefs hne x).symm⟩
  intro heq hnil
  have hmisused := (misused_divByLinear_iff (p := ⟨cs⟩) (x := x)).2 hnil
  rw [heq, misused_divByLinear_iff] at hmisused
  exact ofCoefs_coefs_ne_nil cs hmisused

end Poly

end PlonkKzg
