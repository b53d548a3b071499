import PlonkKzg.Proofs.Domain.Root
import PlonkKzg.Proofs.Prover.Rounds

/-!
# Proofs from a transcript

A prover that draws its challenges from a transcript says to it what its proof holds, so whoever has
the proof and a copy of the transcript draws the same challenges, and with them given, the prover
gives the same proof.

* `Transcript.nthDraw`, `Transcript.drawOutside_eq_some_iff` — the challenge that counts is the first
  draw outside a subgroup, however many there are before it;
* `Transcript.get_pow_ne_one_of_replay` — no challenge of a replay lies in the subgroup of the rows;
* `Preprocessed.prove_eq_ok_iff` — the proofs from a transcript.
-/

namespace PlonkKzg

namespace Transcript

/-- The draw after `k` others, and the transcript after it. -/
def nthDraw {α : Type} (draw : Transcript → α × Transcript) (t : Transcript) : Nat → α × Transcript
  | 0 => draw t
  | k + 1 => nthDraw draw (draw t).2 k

/-- A draw outside the subgroup counts if all before it lie inside. -/
theorem drawOutside_eq_some_iff {order : Nat} {label : List UInt8} {t : Transcript}
    {answer : Scalar × Transcript} : drawOutside order label t = some answer ↔
      ∃ k, (∀ j < k, power (nthDraw (challenge label) t j).1 order = 1) ∧
        power (nthDraw (challenge label) t k).1 order ≠ 1 ∧
        nthDraw (challenge label) t k = answer := by
  -- On both ways a draw is an arbitrary function: nothing here should open the sponge.
  constructor
  · -- The loop has no bound, so this is an induction over its approximations.
    refine drawOutside.partial_correctness order label (fun t answer => ∃ k,
      (∀ j < k, power (nthDraw (challenge label) t j).1 order = 1) ∧
        power (nthDraw (challenge label) t k).1 order ≠ 1 ∧
        nthDraw (challenge label) t k = answer) ?_ t answer
    generalize challenge label = draw
    intro rest hrest t answer hanswer
    have hanswer : (if power (draw t).1 order = 1 then rest (draw t).2 else some (draw t)) =
      some answer := hanswer
    by_cases hp : power (draw t).1 order = 1
    · rw [if_pos hp] at hanswer
      obtain ⟨k, hbefore, hk, hdraw⟩ := hrest _ answer hanswer
      refine ⟨k + 1, ?_, hk, hdraw⟩
      intro j hj
      cases j with
      | zero => exact hp
      | succ j => exact hbefore j (Nat.lt_of_succ_lt_succ hj)
    · rw [if_neg hp, Option.some.injEq] at hanswer
      exact ⟨0, fun j hj => absurd hj (Nat.not_lt_zero j), hp, hanswer⟩
  · have hloop : ∀ t, drawOutside order label t =
        if power (challenge label t).1 order = 1 then drawOutside order label (challenge label t).2
        else some (challenge label t) := fun t => by rw [drawOutside]
    revert hloop
    generalize challenge label = draw
    rintro hloop ⟨k, hbefore, hk, rfl⟩
    induction k generalizing t with
    | zero =>
        rw [hloop]
        exact if_neg hk
    | succ k ih =>
        have hfirst : power (draw t).1 order = 1 := hbefore 0 (Nat.succ_pos k)
        rw [hloop, if_pos hfirst]
        exact ih (fun j hj => hbefore (j + 1) (Nat.succ_lt_succ hj)) hk

/-- A drawn challenge is never an element of the domain. -/
theorem pow_ne_one_of_source {order : Nat} {k : Challenge} {messages : List Message}
    {t t' : Transcript} {c : Scalar} (h : (source order k messages).run t = .ok (c, t')) :
    c ^ order ≠ 1 := by
  rw [StateT.run, source] at h
  split at h
  · rename_i answer hanswer
    obtain ⟨k, -, hk, rfl⟩ := drawOutside_eq_some_iff.1 hanswer
    rwa [Except.ok.inj h, power_eq_pow] at hk
  · cases h

/-- No replayed challenge is an element of the domain. -/
theorem get_pow_ne_one_of_replay {G : Type} [Encoded G] {order : Nat} {P : Proof G}
    {t t' : Transcript} {ch : Challenges} (h : (P.replay (source order)).run t = .ok (ch, t'))
    (k : Challenge) : ch.get k ^ order ≠ 1 := by
  simp only [Proof.replay, run_bind_eq_ok_iff, run_pure_eq_ok_iff] at h
  obtain ⟨gamma, _, hgamma, alpha, _, halpha, zeta, _, hzeta, v, _, hv, rfl, rfl⟩ := h
  cases k with
  | gamma => exact pow_ne_one_of_source hgamma
  | alpha => exact pow_ne_one_of_source halpha
  | zeta => exact pow_ne_one_of_source hzeta
  | bundle => exact pow_ne_one_of_source hv

end Transcript

theorem Domain.not_mem_elements {d : Domain} {x : Scalar} (h : x ^ d.size ≠ 1) :
    x ∉ d.elements := d.mem_elements_iff_pow_size.not.2 h

/-- The prover draws from the transcript what a replay of its proof draws from a copy, and leaves it
as the replay leaves the copy. With these challenges given it gives the same proof. None of them
lies in the subgroup of the rows. -/
theorem Preprocessed.prove_eq_ok_iff {G₁ G₂ : Type} [SMul Scalar G₁] [Zero G₁] [Add G₁]
    [Encoded G₁] (pd : Preprocessed G₁ G₂) (c : Circuit) (w : List Scalar) (t t' : Transcript)
    (P : Proof G₁) :
    pd.prove c w t = .ok (P, t') ↔ ∃ ch : Challenges,
      (P.replay (Transcript.source pd.domain.size)).run (t.absorbAll pd.preamble) = .ok (ch, t') ∧
      pd.proveWith c w ch = .ok P ∧
      (∀ k, ch.get k ^ pd.domain.size ≠ 1) ∧ ch.zeta ∉ pd.domain.elements := by
  rw [prove, proveFrom_eq_ok_iff_proveWith]
  constructor
  · rintro ⟨ch, hreplay, hP⟩
    have houtside := Transcript.get_pow_ne_one_of_replay hreplay
    exact ⟨ch, hreplay, hP, houtside, Domain.not_mem_elements (houtside .zeta)⟩
  · rintro ⟨ch, hreplay, hP, -⟩
    exact ⟨ch, hreplay, hP⟩

end PlonkKzg
