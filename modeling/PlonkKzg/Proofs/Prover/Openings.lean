import PlonkKzg.Proofs.Commitment.Acceptance
import PlonkKzg.Proofs.Prover.Identity

/-!
# The openings of proofs

A proof holds two openings: one of all its polynomials at the third challenge, and one of the
accumulator one row on. Both show the values of the proof, and both belong to its commitments,
whether the assignment satisfies the circuit or not.

* `Preprocessed.Proves.opening_shows`, `Preprocessed.Proves.openingNext_shows` — what the openings
  show;
* `Preprocessed.Proves.verifyBatch_opening`, `Preprocessed.Proves.verifyOpening_openingNext` — they
  are accepted;
* `Circuit.proveWith_openings_verify` — both, with the whole scheme and with the part of it that a
  verifier keeps.
-/

namespace PlonkKzg

theorem Committed.toList_map {α β : Type} (f : α → β) (c : Committed α) :
    (c.map f).toList = c.toList.map f := rfl

namespace Preprocessed.Proves

section

variable {G₁ G₂ : Type} [SMul Scalar G₁] [Zero G₁] [Add G₁] {pd : Preprocessed G₁ G₂} {c : Circuit}
  {w : List Scalar} {ch : Challenges} {R : Rounds G₁} {P : Proof G₁} (h : pd.Proves c w ch R P)
include h

/-- The batch opening is at zeta and shows the claimed values. -/
theorem opening_shows : P.opening.point = ch.zeta ∧ P.opening.values = P.values.toList := by
  obtain ⟨-, -, hpoint, hvalues⟩ := Scheme.batchOpenAt_eq_ok_iff.1 h.opening
  rw [h.values, Committed.toList_map]
  exact ⟨hpoint, hvalues⟩

/-- The second opening is one element further on. -/
theorem openingNext_shows : P.openingNext.point = ch.zeta * pd.domain.generator ∧
    P.openingNext.value = P.zNext := by
  obtain ⟨-, hpoint, hvalue⟩ := Scheme.openAt_eq_ok_iff.1 h.openingNext
  rw [h.zNext]
  exact ⟨hpoint, hvalue⟩

end

section

variable {G₁ G₂ Gₜ : Type} [AddCommGroup G₁] [Module Scalar G₁] [AddCommGroup G₂] [Module Scalar G₂]
  [AddCommGroup Gₜ] [Module Scalar Gₜ] [DecidableEq Gₜ] [Generator G₁] [Generator G₂]
  [Pairing G₁ G₂ Gₜ] [Pairing.Bilinear G₁ G₂ Gₜ] {pd : Preprocessed G₁ G₂} {c : Circuit}
  {w : List Scalar} {ch : Challenges} {R : Rounds G₁} {P : Proof G₁} (h : pd.Proves c w ch R P)
  {d : Nat} {s : Scalar} (hscheme : pd.scheme = .ofSecret d s)
include h hscheme

theorem verifyBatch_opening :
    pd.scheme.verifyBatch P.commitments.toList ch.bundle P.opening = .ok () := by
  have hcommitments := h.commitments
  have hopening := h.opening
  rw [hscheme] at hcommitments hopening ⊢
  exact Scheme.verifyBatch_batchOpenAt hcommitments hopening

theorem verifyOpening_openingNext :
    pd.scheme.verifyOpening P.commitments.accumulator P.openingNext = .ok () := by
  have hcommitment := h.commit_accumulator
  have hopening := h.openingNext
  rw [hscheme] at hcommitment hopening ⊢
  exact Scheme.verifyOpening_openAt hcommitment hopening

end

end Preprocessed.Proves

namespace Circuit

variable {G₁ G₂ Gₜ : Type} [AddCommGroup G₁] [Module Scalar G₁] [AddCommGroup G₂] [Module Scalar G₂]
  [AddCommGroup Gₜ] [Module Scalar Gₜ] [DecidableEq Gₜ] [Generator G₁] [Generator G₂]
  [Pairing G₁ G₂ Gₜ] [Pairing.Bilinear G₁ G₂ Gₜ] [Encoded G₁]

/-- The openings of every proof show its values at the third challenge and one row on, and they are
accepted, by the scheme and by its verifier's part. -/
theorem proveWith_openings_verify {d : Nat} {g : Rng} {scheme : Scheme G₁ G₂}
    (hsetup : ((Scheme.setup d).run g).1 = .ok scheme) {c : Circuit} {pd : Preprocessed G₁ G₂}
    (hpd : c.preprocess scheme = .ok pd) {w : List Scalar} {ch : Challenges} {P : Proof G₁}
    (hP : pd.proveWith c w ch = .ok P) :
    P.opening.point = ch.zeta ∧ P.opening.values = P.values.toList ∧
    P.openingNext.point = ch.zeta * pd.domain.generator ∧ P.openingNext.value = P.zNext ∧
    ∀ verifier ∈ [scheme, scheme.shrink],
      verifier.verifyBatch P.commitments.toList ch.bundle P.opening = .ok () ∧
      verifier.verifyOpening P.commitments.accumulator P.openingNext = .ok () := by
  obtain ⟨-, hsecret⟩ := Scheme.setup_eq_ok_iff.1 hsetup
  have hscheme := (describes_of_preprocess hpd).scheme
  obtain ⟨R, h⟩ := Preprocessed.proveWith_eq_ok_iff.1 hP
  obtain ⟨hpoint, hvalues⟩ := h.opening_shows
  obtain ⟨hpointNext, hvalueNext⟩ := h.openingNext_shows
  have hbatch := h.verifyBatch_opening (hscheme.trans hsecret)
  have hnext := h.verifyOpening_openingNext (hscheme.trans hsecret)
  rw [hscheme] at hbatch hnext
  refine ⟨hpoint, hvalues, hpointNext, hvalueNext, ?_⟩
  intro verifier hverifier
  rcases List.mem_pair.1 hverifier with rfl | rfl
  · exact ⟨hbatch, hnext⟩
  · rw [Scheme.verifyBatch_shrink, Scheme.verifyOpening_shrink]
    exact ⟨hbatch, hnext⟩

/-- The variable is two, which is not its own square. -/
theorem bit_proveWith_openings_verify : ∃ (scheme : Scheme Scalar Scalar)
    (pd : Preprocessed Scalar Scalar) (P : Proof Scalar),
    ((Scheme.setup 7).run ⟨List.replicate 32 0, 0⟩).1 = .ok scheme ∧
    bit.preprocess scheme = .ok pd ∧
    pd.proveWith bit [0, 1 + 1] .fixed = .ok P ∧
    P.opening.point = Challenges.fixed.zeta ∧ P.opening.values = P.values.toList ∧
    P.openingNext.point = Challenges.fixed.zeta * pd.domain.generator ∧
    P.openingNext.value = P.zNext ∧
    ∀ verifier ∈ [scheme, scheme.shrink],
      verifier.verifyBatch P.commitments.toList Challenges.fixed.bundle P.opening = .ok () ∧
      verifier.verifyOpening P.commitments.accumulator P.openingNext = .ok () := by
  let g : Rng := ⟨List.replicate 32 0, 0⟩
  let s := (Scalar.random.run g).1
  have hsetup : ((Scheme.setup 7).run g).1 = .ok (.ofSecret 7 s : Scheme Scalar Scalar) :=
    Scheme.setup_eq_ok_iff.2 ⟨by decide, rfl⟩
  have hcapacity :
      cosetCount * bit.domainSize ≤ (.ofSecret 7 s : Scheme Scalar Scalar).maxDegree + 1 := by
    rw [Scheme.maxDegree_ofSecret]
    decide
  obtain ⟨pd, hpd, hsize, hperm, hlabel⟩ := bit_preprocess_isOk hcapacity
  have h := describes_of_preprocess hpd
  have hden : ∀ i < pd.domain.size, rowFactor Challenges.fixed.gamma (bit.rowValues [0, 1 + 1] i)
      (pd.labels.atRow i) ≠ 0 := by
    intro i hi
    rw [h.labels_atRow hi]
    simp only [hlabel, hperm, hsize, Wires.map] at hi ⊢
    interval_cases i <;> decide
  obtain ⟨t, q, -, -, hrun⟩ :=
    h.exists_run (by decide) (denominator_layout_ne_zero hden) Challenges.fixed.alpha
  obtain ⟨P, hP, -⟩ := hrun Challenges.fixed.zeta Challenges.fixed.bundle
  exact ⟨_, pd, P, hsetup, hpd, hP, proveWith_openings_verify hsetup hpd hP⟩

end Circuit

end PlonkKzg
