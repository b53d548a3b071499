import Mathlib.Tactic.LinearCombination
import PlonkKzg.Proofs.Prover.Trace

/-!
# What an exact quotient says about the rows

* `Preprocessed.QuotientExact` — the quotient of given columns is exact;
* `Circuit.Describes.quotientExact_iff` — what one challenge says about a row;
* `Circuit.quotientExact_pair_iff` — what two challenges say: the gate equation holds on every row,
  and the accumulator equation on every row whose left value is not zero;
* `Circuit.bit_quotientExact_mismatch` — on the other rows the accumulator is free.
-/

namespace PlonkKzg

open Preprocessed

/-- The polynomial that is computed from given columns is the quotient of their equations. -/
def Preprocessed.QuotientExact {G₁ G₂ : Type} (pd : Preprocessed G₁ G₂)
    (columns : Wires (List Scalar)) (z : List Scalar) (gamma alpha : Scalar) : Prop :=
  ∃ t q, Trace.Interpolates t pd.domain columns z ∧
    pd.quotientPoly t.wires t.z t.zNext gamma alpha = .ok q ∧
    q.toPolynomial * pd.domain.vanishing = pd.combined t gamma alpha

namespace Circuit

section

variable {G₁ G₂ : Type} {c : Circuit} {scheme : Scheme G₁ G₂} {pd : Preprocessed G₁ G₂}
  {columns : Wires (List Scalar)} {z : List Scalar}

/-- The division is exact when the combined equation holds on every row. -/
theorem Describes.quotientExact_iff (h : c.Describes scheme pd)
    (hw : columns.HasLength pd.domain.size) (hz : z.length = pd.domain.size)
    (gamma alpha : Scalar) :
    pd.QuotientExact columns z gamma alpha ↔ ∀ i < pd.domain.size,
      gateValue (c.rowSelectors i) (columns.atRow i) +
        alpha * (pd.mismatch gamma columns z i * (columns.atRow i).l) = 0 := by
  constructor
  · rintro ⟨t, q, ht, hq, hexact⟩ i hi
    rw [← h.eval_combined_row ht gamma alpha hi]
    exact (h.quotient_mul_vanishing_iff ht.fits hq).1 hexact i hi
  · intro hrows
    obtain ⟨t, ht⟩ := Trace.exists_interpolates hw hz
    obtain ⟨q, hq, -⟩ := h.quotientPoly_isOk ht.fits gamma alpha
    refine ⟨t, q, ht, hq, (h.quotient_mul_vanishing_iff ht.fits hq).2 ?_⟩
    intro i hi
    rw [h.eval_combined_row ht gamma alpha hi]
    exact hrows i hi

end

/-- Two sums that differ in the weight of one item are zero only if both items are. -/
theorem add_mul_pair_eq_zero_iff {a b g t : Scalar} (hab : a ≠ b) :
    g + a * t = 0 ∧ g + b * t = 0 ↔ g = 0 ∧ t = 0 := by
  constructor
  · rintro ⟨ha, hb⟩
    have hprod : (a - b) * t = 0 := by linear_combination ha - hb
    have ht := (mul_eq_zero.1 hprod).resolve_left (sub_ne_zero.2 hab)
    rw [ht, mul_zero, add_zero] at ha
    exact ⟨ha, ht⟩
  · rintro ⟨rfl, rfl⟩
    simp

/-- The quotient is exact for two challenges if and only if every row satisfies its gate equation
and has an accumulator that follows the recurrence, or else zero on its left wire. -/
theorem quotientExact_pair_iff {G₁ G₂ : Type} [SMul Scalar G₁] [Zero G₁] [Add G₁] {c : Circuit}
    {scheme : Scheme G₁ G₂} {pd : Preprocessed G₁ G₂} (hpd : c.preprocess scheme = .ok pd)
    {columns : Wires (List Scalar)} (hw : columns.HasLength pd.domain.size) {z : List Scalar}
    (hz : z.length = pd.domain.size) (gamma : Scalar) {a b : Scalar} (hab : a ≠ b) :
    pd.QuotientExact columns z gamma a ∧ pd.QuotientExact columns z gamma b ↔
      ∀ i < pd.domain.size, gateValue (c.rowSelectors i) (columns.atRow i) = 0 ∧
        ((columns.atRow i).l = 0 ∨
          z.getD ((i + 1) % pd.domain.size) 0 * pd.denominator columns gamma i =
            z.getD i 0 * pd.numerator columns gamma i) := by
  have h := describes_of_preprocess hpd
  rw [h.quotientExact_iff hw hz, h.quotientExact_iff hw hz, ← forall₂_and]
  apply forall₂_congr
  intro i hi
  rw [add_mul_pair_eq_zero_iff hab, mul_eq_zero, mismatch, sub_eq_zero, or_comm]

/-- The values of the variable one, and the accumulator that stays one. -/
theorem bit_quotientExact_pair : ∃ pd : Preprocessed G1 G2,
    bit.preprocess (.ofSecret 7 1) = .ok pd ∧
    (bitColumns 1 1 1).HasLength pd.domain.size ∧
    ([1, 1] : List Scalar).length = pd.domain.size ∧
    pd.QuotientExact (bitColumns 1 1 1) [1, 1] 1 1 ∧
    pd.QuotientExact (bitColumns 1 1 1) [1, 1] 1 0 := by
  obtain ⟨pd, hpd, hsize, hperm, hlabel⟩ := preprocess_bit
  have h := describes_of_preprocess hpd
  have hw := bitColumns_hasLength hsize 1 1 1
  have hz : ([1, 1] : List Scalar).length = pd.domain.size := hsize.symm
  refine ⟨pd, hpd, hw, hz, (quotientExact_pair_iff hpd hw hz 1 one_ne_zero).2 ?_⟩
  intro i hi
  rw [denominator, h.labels_atRow hi, numerator_eq hi]
  simp only [hlabel, hperm, hsize, Wires.map] at hi ⊢
  interval_cases i <;> decide

/-- With zero on all wires the quotient is exact for every challenge, though the accumulator does
not follow the recurrence. -/
theorem bit_quotientExact_mismatch : ∃ pd : Preprocessed G1 G2,
    bit.preprocess (.ofSecret 7 1) = .ok pd ∧
    (bitColumns 0 0 0).HasLength pd.domain.size ∧
    ([1, .ofNat 5] : List Scalar).length = pd.domain.size ∧
    (∀ alpha, pd.QuotientExact (bitColumns 0 0 0) [1, .ofNat 5] 1 alpha) ∧
    ¬∀ i < pd.domain.size, gateValue (bit.rowSelectors i) ((bitColumns 0 0 0).atRow i) = 0 ∧
      [1, .ofNat 5].getD ((i + 1) % pd.domain.size) 0 * pd.denominator (bitColumns 0 0 0) 1 i =
        [1, .ofNat 5].getD i 0 * pd.numerator (bitColumns 0 0 0) 1 i := by
  obtain ⟨pd, hpd, hsize, hperm, hlabel⟩ := preprocess_bit
  have h := describes_of_preprocess hpd
  have hw := bitColumns_hasLength hsize 0 0 0
  have hz : ([1, .ofNat 5] : List Scalar).length = pd.domain.size := hsize.symm
  refine ⟨pd, hpd, hw, hz, ?_, ?_⟩
  · intro alpha
    rw [h.quotientExact_iff hw hz]
    intro i hi
    have hleft : ((bitColumns 0 0 0).atRow i).l = 0 := by
      rw [hsize] at hi
      interval_cases i <;> rfl
    rw [hleft, mul_zero, mul_zero, add_zero]
    rw [hsize] at hi
    interval_cases i <;> decide
  · intro hrows
    have hfirst := (hrows 0 pd.domain.size_pos).2
    rw [denominator, h.labels_atRow pd.domain.size_pos, numerator_eq pd.domain.size_pos] at hfirst
    simp only [hlabel, hperm, hsize, Wires.map] at hfirst
    revert hfirst
    decide

end Circuit

end PlonkKzg
