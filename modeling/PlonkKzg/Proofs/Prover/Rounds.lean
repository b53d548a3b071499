import PlonkKzg.Prover.Proof
import PlonkKzg.Proofs.Outcome

/-!
# The rounds of the prover

A run of the prover, taken apart: what each round computes with the challenges so far, and where in
the proof its results stand. The challenges are those that the source gives for the parts of the
proof in the order of the rounds, so that whoever has the proof can ask for them again.

* `Preprocessed.Rounds`, `Preprocessed.Proves` — the results of the rounds, and the proof that they
  lead to;
* `Proof.replay` — the challenges of a source for what a proof holds;
* `Preprocessed.proveFrom_eq_ok_iff` — a run is a replay and the rounds with its challenges;
* `Preprocessed.proveWith_eq_ok_iff` — with given challenges, the rounds with these;
* `Preprocessed.proveFrom_eq_ok_iff_proveWith` — so a run is a replay and a run with its challenges;
* `Preprocessed.Proves.commitments` — the commitments of a proof are those to its polynomials.
-/

namespace PlonkKzg

/-- The challenges that a source gives for what a proof holds. The commitment to the accumulator
stands last in a proof, but it comes before that to the quotient. -/
def Proof.replay {σ G : Type} [Encoded G] (source : ChallengeSource σ) (P : Proof G) :
    StateT σ (Except Fault) Challenges := do
  let gamma ← source .gamma (P.commitments.wires.toList.map .element)
  let alpha ← source .alpha [.element P.commitments.accumulator]
  let zeta ← source .zeta [.element P.commitments.quotient]
  let bundle ← source .bundle ((P.values.toList ++ [P.zNext]).map .scalar)
  pure { zeta, bundle, gamma, alpha }

/-- Replaying against given challenges returns them. -/
theorem Proof.replay_given {G : Type} [Encoded G] {P : Proof G} {given ch : Challenges} {s : Unit} :
    (P.replay given.source).run () = .ok (ch, s) ↔ given = ch := by
  simp [Proof.replay, Challenges.source, Challenges.get, pure_eq_ok_iff]

namespace Preprocessed

/-- The results of the first three rounds. -/
structure Rounds (G : Type) where
  wires : WireRound G
  accumulator : AccumulatorRound G
  quotient : Poly

variable {G₁ G₂ : Type} [SMul Scalar G₁] [Zero G₁] [Add G₁]

/-- The polynomials that are opened. -/
def Rounds.polys (R : Rounds G₁) : Committed Poly :=
  ⟨R.wires.polys, R.quotient, R.accumulator.poly⟩

/-- The rounds of a run with given challenges, and the proof that they lead to. -/
structure Proves (pd : Preprocessed G₁ G₂) (c : Circuit) (w : List Scalar) (ch : Challenges)
    (R : Rounds G₁) (P : Proof G₁) : Prop where
  fit : pd.requireFit c = .ok ()
  wires : pd.wireRound c w = .ok R.wires
  accumulator : pd.accumulatorRound R.wires.columns ch.gamma = .ok R.accumulator
  quotient : pd.quotientPoly R.wires.polys R.accumulator.poly R.accumulator.polyNext ch.gamma
    ch.alpha = .ok R.quotient
  wireCommitments : P.commitments.wires = R.wires.commitments
  accumulatorCommitment : P.commitments.accumulator = R.accumulator.commitment
  quotientCommitment : pd.commit R.quotient = .ok P.commitments.quotient
  values : P.values = R.polys.map (·.eval ch.zeta)
  zNext : P.zNext = R.accumulator.poly.eval (ch.zeta * pd.domain.generator)
  opening : pd.scheme.batchOpenAt ch.zeta ch.bundle R.polys.toList = .ok P.opening
  openingNext : pd.scheme.openAt (ch.zeta * pd.domain.generator) R.accumulator.poly =
    .ok P.openingNext

variable {pd : Preprocessed G₁ G₂} {c : Circuit} {w : List Scalar} {ch : Challenges} {P : Proof G₁}

section

variable [Encoded G₁]

/-- A run is a replay of what its proof holds, and the rounds with the challenges of the replay. -/
theorem proveFrom_eq_ok_iff {σ : Type} {source : ChallengeSource σ} {s s' : σ} :
    (pd.proveFrom source c w).run s = .ok (P, s') ↔
      ∃ ch, (P.replay source).run s = .ok (ch, s') ∧ ∃ R, pd.Proves c w ch R P := by
  simp only [proveFrom, Proof.replay, run_bind_eq_ok_iff, run_lift_eq_ok_iff, run_pure_eq_ok_iff,
    lift_eq_ok_iff, and_assoc, exists_and_left, exists_eq_left']
  -- Now both sides are the same questions to the source, on the left with the rounds between them.
  constructor
  · rintro ⟨_, hfit, wires, hwires, gamma, s₁, hgamma, accumulator, haccumulator, alpha, s₂, halpha,
      q, hq, C, hC, zeta, s₃, hzeta, v, s₄, hv, opening, hopening, openingNext, hopeningNext, rfl,
      rfl⟩
    exact ⟨⟨zeta, v, gamma, alpha⟩,
      ⟨gamma, s₁, hgamma, alpha, s₂, halpha, zeta, s₃, hzeta, v, s₄, hv, rfl, rfl⟩,
      ⟨wires, accumulator, q⟩, hfit, hwires, haccumulator, hq, rfl, rfl, hC, rfl, rfl, hopening,
      hopeningNext⟩
  · obtain ⟨⟨Cs, C, D⟩, values, zNext, opening, openingNext⟩ := P
    rintro ⟨_, ⟨gamma, s₁, hgamma, alpha, s₂, halpha, zeta, s₃, hzeta, v, _, hv, rfl, rfl⟩, R, h⟩
    obtain ⟨hfit, hwires, haccumulator, hq, rfl, rfl, hC, rfl, rfl, hopening, hopeningNext⟩ := h
    exact ⟨_, hfit, R.wires, hwires, gamma, s₁, hgamma, R.accumulator, haccumulator, alpha, s₂,
      halpha, R.quotient, hq, C, hC, zeta, s₃, hzeta, v, _, hv, opening, hopening, openingNext,
      hopeningNext, rfl, rfl⟩

/-- A run with given challenges, as the rounds it went through. -/
theorem proveWith_eq_ok_iff : pd.proveWith c w ch = .ok P ↔ ∃ R, pd.Proves c w ch R P := by
  simp only [proveWith, run'_eq_ok_iff, proveFrom_eq_ok_iff, Proof.replay_given, exists_eq_left',
    exists_const]

/-- A run with any source is a run with given challenges, which are those of a replay. -/
theorem proveFrom_eq_ok_iff_proveWith {σ : Type} {source : ChallengeSource σ} {s s' : σ} :
    (pd.proveFrom source c w).run s = .ok (P, s') ↔
      ∃ ch, (P.replay source).run s = .ok (ch, s') ∧ pd.proveWith c w ch = .ok P := by
  simp only [proveFrom_eq_ok_iff, proveWith_eq_ok_iff]

end

theorem commit_eq_ok_iff {p : Poly} {C : G₁} :
    pd.commit p = .ok C ↔ pd.scheme.commit p = .ok C := by
  unfold commit
  split <;> simp_all

namespace Proves

variable {R : Rounds G₁} (h : pd.Proves c w ch R P)
include h

theorem commit_accumulator :
    pd.scheme.commit R.accumulator.poly = .ok P.commitments.accumulator := by
  have hround := h.accumulator
  simp only [accumulatorRound, bind_eq_ok_iff, pure_eq_ok_iff] at hround
  obtain ⟨_, -, p, -, _, -, C, hC, hround⟩ := hround
  rw [h.accumulatorCommitment, ← hround]
  exact commit_eq_ok_iff.1 hC

/-- The commitments of a proof are those of its wire polynomials. -/
theorem commit_wires : R.wires.polys.mapM pd.scheme.commit = .ok P.commitments.wires := by
  have hround := h.wires
  simp only [wireRound, bind_eq_ok_iff, pure_eq_ok_iff] at hround
  obtain ⟨_, -, ps, -, Cs, hCs, hround⟩ := hround
  rw [h.wireCommitments, ← hround]
  simp only [Wires.mapM_eq_ok_iff, commit_eq_ok_iff] at hCs ⊢
  exact hCs

/-- The commitments of a proof are those to its polynomials, in this order. -/
theorem commitments : R.polys.toList.mapM pd.scheme.commit = .ok P.commitments.toList := by
  obtain ⟨hl, hr, ho⟩ := Wires.mapM_eq_ok_iff.1 h.commit_wires
  have hq := commit_eq_ok_iff.1 h.quotientCommitment
  have hz := h.commit_accumulator
  simp only [Rounds.polys, Committed.toList, Wires.toList, List.cons_append, List.nil_append,
    List.mapM_cons, List.mapM_nil, hl, hr, ho, hq, hz]
  rfl

end Proves

end Preprocessed

end PlonkKzg
