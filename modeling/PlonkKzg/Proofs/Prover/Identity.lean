import PlonkKzg.Proofs.Prover.Run

/-!
# What the proof of an assignment shows

* `Circuit.Describes.eval_combined_layout` — on the rows of an assignment, the combined equation is
  the gate equation;
* `Circuit.proveWith_identityHolds` — with a satisfying assignment the identity holds at every
  challenge;
* `Circuit.proveWith_encard_identityHolds_le` — with an assignment that fails some gate there is a
  proof too, but the identity holds at few challenges.
-/

namespace PlonkKzg

open Polynomial Preprocessed

namespace Circuit

section

variable {G₁ G₂ : Type} {c : Circuit} {scheme : Scheme G₁ G₂} {pd : Preprocessed G₁ G₂}
  {w : List Scalar} {gamma alpha : Scalar} {t : Trace}

theorem denominator_layout_ne_zero
    (hrows : ∀ i < pd.domain.size, rowFactor gamma (c.rowValues w i) (pd.labels.atRow i) ≠ 0) :
    ∀ i < pd.domain.size, pd.denominator (c.layout w pd.domain.size) gamma i ≠ 0 := by
  intro i hi
  rw [denominator_layout c w hi]
  exact hrows i hi

variable (h : c.Describes scheme pd)
  (ht : t.Interpolates pd.domain (c.layout w pd.domain.size)
    (pd.accumulatedColumn (c.layout w pd.domain.size) gamma))
  (hden : ∀ i < pd.domain.size, pd.denominator (c.layout w pd.domain.size) gamma i ≠ 0)
include h ht hden

/-- The accumulator of an assignment adds nothing on the rows, whether its gates are satisfied or
not. -/
theorem Describes.eval_combined_layout {i : Nat} (hi : i < pd.domain.size) :
    (pd.combined t gamma alpha).eval (pd.domain.generator ^ i) = c.rowGate w i := by
  rw [h.eval_combined_row ht gamma alpha hi, h.mismatch_layout hden hi, zero_mul, mul_zero,
    add_zero, atRow_layout hi, rowGate]

/-- So the quotient is exact if and only if the gates are satisfied. -/
theorem Describes.mul_vanishing_layout_iff (hassigned : c.Assigned w) {q : Poly}
    (hq : pd.quotientPoly t.wires t.z t.zNext gamma alpha = .ok q) :
    q.toPolynomial * pd.domain.vanishing = pd.combined t gamma alpha ↔
      ∀ g ∈ c.rows, g.eval w = .ok 0 := by
  rw [h.quotient_mul_vanishing_iff ht.fits hq, ← rowGate_eq_zero_iff hassigned]
  constructor
  · intro hrows i
    by_cases hi : i < pd.domain.size
    · rw [← h.eval_combined_layout ht hden hi]
      exact hrows i hi
    · apply rowGate_of_le
      rw [rows_length]
      exact h.size_le.trans (Nat.not_lt.1 hi)
  · intro hrows i hi
    rw [h.eval_combined_layout ht hden hi]
    exact hrows i

/-- If some gate is not satisfied, few points hide it. -/
theorem Describes.encard_quotient_agree_le (hassigned : c.Assigned w)
    (hfail : ∃ g ∈ c.rows, g.eval w ≠ .ok 0) {q : Poly}
    (hq : pd.quotientPoly t.wires t.z t.zNext gamma alpha = .ok q) :
    {zeta | q.eval zeta * (zeta ^ pd.domain.size - 1) =
      (pd.combined t gamma alpha).eval zeta}.encard ≤ (5 * pd.domain.size - 1 : Nat) := by
  have hne : q.toPolynomial * pd.domain.vanishing ≠ pd.combined t gamma alpha := by
    intro hexact
    obtain ⟨g, hg, hvalue⟩ := hfail
    exact hvalue ((h.mul_vanishing_layout_iff ht hden hassigned hq).1 hexact g hg)
  have hpos := pd.domain.size_pos
  obtain ⟨q', hq', hqlen, -⟩ := h.quotientPoly_isOk ht.fits gamma alpha
  obtain rfl := Except.ok.inj (hq.symm.trans hq')
  rw [cosetCount] at hqlen
  have hproduct : (q.toPolynomial * pd.domain.vanishing).natDegree ≤ 5 * pd.domain.size - 1 := by
    have hqdegree : q.toPolynomial.natDegree ≤ 4 * pd.domain.size - 1 :=
      natDegree_toPolynomial_le (by omega)
    refine (natDegree_mul_le_of_le hqdegree pd.domain.natDegree_vanishing.le).trans ?_
    omega
  have hcombined : (pd.combined t gamma alpha).natDegree ≤ 5 * pd.domain.size - 1 :=
    (h.natDegree_combined_le ht.fits gamma alpha).trans (by omega)
  have hagree := Poly.encard_agree_le hne hproduct hcombined
  simpa only [eval_mul, Poly.eval_toPolynomial, Domain.eval_vanishing] using hagree

end

section

variable {G₁ G₂ : Type} [SMul Scalar G₁] [Zero G₁] [Add G₁] [Encoded G₁]

/-- For an assignment that satisfies all gates, the prover answers and its proof satisfies the
identity, whatever the challenges are, unless a denominator of the accumulator is zero. -/
theorem proveWith_identityHolds {c : Circuit} {scheme : Scheme G₁ G₂} {pd : Preprocessed G₁ G₂}
    (hpd : c.preprocess scheme = .ok pd) {w : List Scalar} (hlen : c.varCount.toNat ≤ w.length)
    (hgates : ∀ g ∈ c.rows, g.eval w = .ok 0) (ch : Challenges)
    (hden : ∀ i < pd.domain.size,
      rowFactor ch.gamma (c.rowValues w i) (pd.labels.atRow i) ≠ 0) :
    ∃ P, pd.proveWith c w ch = .ok P ∧ pd.IdentityHolds ch P := by
  have h := describes_of_preprocess hpd
  have hden := denominator_layout_ne_zero hden
  obtain ⟨t, q, ht, hq, hrun⟩ := h.exists_run hlen hden ch.alpha
  obtain ⟨P, hP, hidentity⟩ := hrun ch.zeta ch.bundle
  refine ⟨P, hP, hidentity.2 ?_⟩
  have hexact := (h.mul_vanishing_layout_iff ht hden (h.assigned hlen) hq).2 hgates
  rw [← hexact, eval_mul, Poly.eval_toPolynomial, Domain.eval_vanishing]

/-- The variable is one. -/
theorem bit_proveWith_identityHolds : ∃ pd : Preprocessed G1 G2,
    bit.preprocess (.ofSecret 7 1) = .ok pd ∧
    ∃ P, pd.proveWith bit [0, 1] .fixed = .ok P ∧ pd.IdentityHolds .fixed P := by
  obtain ⟨pd, hpd, hsize, hperm, hlabel⟩ := preprocess_bit
  have h := describes_of_preprocess hpd
  refine ⟨pd, hpd, proveWith_identityHolds hpd (by decide) (fun g hg => ?_) .fixed fun i hi => ?_⟩
  · obtain rfl := List.mem_singleton.1 hg
    rfl
  · rw [h.labels_atRow hi]
    simp only [hlabel, hperm, hsize, Wires.map] at hi ⊢
    interval_cases i <;> decide

/-- For an assignment that fails some gate, the prover answers too, but the third challenges at
which its proof satisfies the identity are fewer than five times the rows. -/
theorem proveWith_encard_identityHolds_le {c : Circuit} {scheme : Scheme G₁ G₂}
    {pd : Preprocessed G₁ G₂} (hpd : c.preprocess scheme = .ok pd) {w : List Scalar}
    (hlen : c.varCount.toNat ≤ w.length) (hfail : ∃ g ∈ c.rows, g.eval w ≠ .ok 0)
    (bundle gamma alpha : Scalar)
    (hden : ∀ i < pd.domain.size, rowFactor gamma (c.rowValues w i) (pd.labels.atRow i) ≠ 0) :
    (∀ zeta, ∃ P, pd.proveWith c w ⟨zeta, bundle, gamma, alpha⟩ = .ok P) ∧
      {zeta | ∃ P, pd.proveWith c w ⟨zeta, bundle, gamma, alpha⟩ = .ok P ∧
        pd.IdentityHolds ⟨zeta, bundle, gamma, alpha⟩ P}.encard ≤
          (5 * pd.domain.size - 1 : Nat) := by
  have h := describes_of_preprocess hpd
  have hden := denominator_layout_ne_zero hden
  obtain ⟨t, q, ht, hq, hrun⟩ := h.exists_run hlen hden alpha
  constructor
  · intro zeta
    obtain ⟨P, hP, -⟩ := hrun zeta bundle
    exact ⟨P, hP⟩
  · refine (Set.encard_le_encard ?_).trans
      (h.encard_quotient_agree_le ht hden (h.assigned hlen) hfail hq)
    rintro zeta ⟨P, hP, hidentity⟩
    obtain ⟨P', hP', hiff⟩ := hrun zeta bundle
    obtain rfl := Except.ok.inj (hP.symm.trans hP')
    exact hiff.1 hidentity

/-- The variable is two, which is not its own square. -/
theorem bit_proveWith_encard_le : ∃ pd : Preprocessed G1 G2,
    bit.preprocess (.ofSecret 7 1) = .ok pd ∧ bit.varCount.toNat ≤ ([0, 1 + 1] : List Scalar).length ∧
    (∃ g ∈ bit.rows, g.eval [0, 1 + 1] ≠ .ok 0) ∧
    (∀ zeta, ∃ P, pd.proveWith bit [0, 1 + 1] ⟨zeta, 1, 1 + 1, 1⟩ = .ok P) ∧
    {zeta | ∃ P, pd.proveWith bit [0, 1 + 1] ⟨zeta, 1, 1 + 1, 1⟩ = .ok P ∧
      pd.IdentityHolds ⟨zeta, 1, 1 + 1, 1⟩ P}.encard ≤ (5 * pd.domain.size - 1 : Nat) := by
  obtain ⟨pd, hpd, hsize, hperm, hlabel⟩ := preprocess_bit
  have h := describes_of_preprocess hpd
  have hfail : ∃ g ∈ bit.rows, g.eval [0, 1 + 1] ≠ .ok 0 := by
    refine ⟨.mul 1 1 1, List.mem_singleton.2 rfl, ?_⟩
    intro hvalue
    have hzero := (eval_eq_ok_iff.1 hvalue).2
    revert hzero
    decide
  refine ⟨pd, hpd, by decide, hfail,
    proveWith_encard_identityHolds_le hpd (by decide) hfail 1 (1 + 1) 1 ?_⟩
  intro i hi
  rw [h.labels_atRow hi]
  simp only [hlabel, hperm, hsize, Wires.map] at hi ⊢
  interval_cases i <;> decide

end

end Circuit

end PlonkKzg
