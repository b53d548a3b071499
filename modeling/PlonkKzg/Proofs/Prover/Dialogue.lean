import PlonkKzg.Proofs.Prover.Replay

/-!
# The dialogue of a proof

What a prover says to its transcript before each challenge, and the transcript that each challenge
is drawn from: the fold of all that was said and drawn before.

* `Transcript.Event`, `Transcript.afterAll` — messages and draws, and the fold of a list of them;
* `Transcript.IsChallenge` — the first draw outside a subgroup; `Transcript.source_eq_ok_iff` — the
  challenges that the source of a transcript gives;
* `Request`, `ChallengeSource.noted` — a request for a challenge, and the source that notes them;
* `Request.saidBefore`, `Request.eventsBefore` — the messages, and the messages and draws, before
  the draws of a challenge;
* `Proof.requests`, `Proof.replay_noted_iff` — the requests that a proof leads to;
* `Preprocessed.dialogue`, `Preprocessed.dialogue_eq_ok_iff` — the run of the prover with notes.
-/

namespace PlonkKzg

/-! ### Events -/

/-- What happens to a transcript. -/
inductive Transcript.Event where
  /-- A message enters. -/
  | said (m : Message)
  /-- A challenge is drawn under a label. -/
  | drawn (label : List UInt8)

namespace Transcript

def after (t : Transcript) : Event → Transcript
  | .said m => t.absorb m
  | .drawn label => (t.challenge label).2

def afterAll (t : Transcript) (events : List Event) : Transcript := events.foldl after t

theorem afterAll_nil (t : Transcript) : t.afterAll [] = t := rfl

theorem afterAll_append (t : Transcript) (es fs : List Event) :
    t.afterAll (es ++ fs) = (t.afterAll es).afterAll fs := List.foldl_append

/-- Saying a list of messages absorbs them in order. -/
theorem afterAll_said (t : Transcript) (ms : List Message) :
    t.afterAll (ms.map .said) = t.absorbAll ms := List.foldl_map

/-- A transcript after as many draws under a label. -/
def afterDraws (t : Transcript) (label : List UInt8) (n : Nat) : Transcript :=
  t.afterAll (List.replicate n (.drawn label))

/-- The draws under one label form a chain of transcripts. -/
theorem nthDraw_challenge (label : List UInt8) (t : Transcript) (n : Nat) :
    nthDraw (challenge label) t n = (t.afterDraws label n).challenge label := by
  induction n generalizing t with
  | zero => rfl
  | succ n ih =>
      simp only [nthDraw, ih, afterDraws, afterAll, List.replicate_succ, List.foldl_cons, after]

theorem afterDraws_succ (t : Transcript) (label : List UInt8) (n : Nat) :
    t.afterDraws label (n + 1) = ((t.afterDraws label n).challenge label).2 := by
  simp only [afterDraws, afterAll, List.replicate_succ', List.foldl_concat, after]

/-- The draw after `n` others that were thrown away, because they have the power one. -/
structure IsChallenge (order : Nat) (label : List UInt8) (t : Transcript) (n : Nat) (c : Scalar) :
    Prop where
  value : ((t.afterDraws label n).challenge label).1 = c
  outside : c ^ order ≠ 1
  inside : ∀ j < n, ((t.afterDraws label j).challenge label).1 ^ order = 1

/-- A challenge is the first draw outside the domain, and the transcript has all draws in it. -/
theorem source_eq_ok_iff {order : Nat} {k : Challenge} {messages : List Message}
    {t t' : Transcript} {c : Scalar} : (source order k messages).run t = .ok (c, t') ↔
      ∃ n, IsChallenge order k.label (t.absorbAll messages) n c ∧
        (t.absorbAll messages).afterDraws k.label (n + 1) = t' := by
  have hdraws := @drawOutside_eq_some_iff order k.label (t.absorbAll messages) (c, t')
  have hsource : (source order k messages).run t = .ok (c, t') ↔
      drawOutside order k.label (t.absorbAll messages) = some (c, t') := by
    rw [StateT.run, source]
    split <;> simp_all
  simp only [nthDraw_challenge, power_eq_pow] at hdraws
  rw [hsource, hdraws]
  constructor
  · rintro ⟨n, hinside, houtside, hdraw⟩
    rw [hdraw] at houtside
    refine ⟨n, ⟨by rw [hdraw], houtside, hinside⟩, ?_⟩
    rw [afterDraws_succ, hdraw]
  · rintro ⟨n, ⟨rfl, houtside, hinside⟩, rfl⟩
    refine ⟨n, hinside, houtside, ?_⟩
    rw [afterDraws_succ]

end Transcript

/-! ### Requests -/

theorem Challenge.forall_iff {p : Challenge → Prop} :
    (∀ k, p k) ↔ p .gamma ∧ p .alpha ∧ p .zeta ∧ p .bundle := by
  constructor
  · exact fun h => ⟨h _, h _, h _, h _⟩
  · rintro ⟨hgamma, halpha, hzeta, hbundle⟩ k
    cases k <;> assumption

/-- One item for each challenge, in the order in which they are drawn. -/
def Challenge.each {α : Type} (gamma alpha zeta bundle : α) : Challenge → α
  | .gamma => gamma
  | .alpha => alpha
  | .zeta => zeta
  | .bundle => bundle

/-- A request for a challenge, with what is said since the last one. -/
structure Request where
  challenge : Challenge
  messages : List Message

/-- A source that notes what it is asked. -/
def ChallengeSource.noted {σ : Type} (source : ChallengeSource σ) :
    ChallengeSource (σ × List Request) := fun k messages (s, asked) => do
  let (c, s) ← source k messages s
  pure (c, s, asked ++ [⟨k, messages⟩])

theorem ChallengeSource.noted_eq_ok_iff {σ : Type} {source : ChallengeSource σ} {k : Challenge}
    {messages : List Message} {s s' : σ} {asked asked' : List Request} {c : Scalar} :
    (noted source k messages).run (s, asked) = .ok (c, s', asked') ↔
      (source k messages).run s = .ok (c, s') ∧ asked ++ [⟨k, messages⟩] = asked' := by
  simp only [noted, StateT.run, bind_eq_ok_iff, pure_eq_ok_iff, Prod.exists, Prod.mk.injEq]
  constructor
  · rintro ⟨_, _, h, rfl, rfl, rfl⟩
    exact ⟨h, rfl⟩
  · rintro ⟨h, rfl⟩
    exact ⟨c, s', h, rfl, rfl, rfl⟩

namespace Request

open Transcript (Event)

/-- What is said before the draws of a challenge. -/
def saidBefore (k : Challenge) : List Request → List Message
  | [] => []
  | r :: rs => r.messages ++ if r.challenge = k then [] else saidBefore k rs

/-- The draws of a request, the last of which counts. -/
def draws (tries : Challenge → Nat) (r : Request) : List Event :=
  List.replicate (tries r.challenge + 1) (.drawn r.challenge.label)

/-- What is said and drawn before the draws of a challenge. -/
def eventsBefore (tries : Challenge → Nat) (k : Challenge) : List Request → List Event
  | [] => []
  | r :: rs => r.messages.map .said ++
      if r.challenge = k then [] else r.draws tries ++ eventsBefore tries k rs

/-- All that is said and drawn. -/
def events (tries : Challenge → Nat) (rs : List Request) : List Event :=
  rs.flatMap fun r => r.messages.map .said ++ r.draws tries

end Request

theorem Transcript.afterAll_draws (t : Transcript) (tries : Challenge → Nat) (r : Request) :
    t.afterAll (r.draws tries) = t.afterDraws r.challenge.label (tries r.challenge + 1) := rfl

def Transcript.Event.message? : Event → Option Message
  | .said m => some m
  | .drawn _ => none

theorem Transcript.Event.filterMap_said (ms : List Message) :
    (ms.map Event.said).filterMap message? = ms := by
  simp [List.filterMap_map, Function.comp_def, message?]

theorem Request.filterMap_draws (tries : Challenge → Nat) (r : Request) :
    (r.draws tries).filterMap Transcript.Event.message? = [] := by
  simp [draws, Transcript.Event.message?]

/-- The messages among the events. -/
theorem Request.filterMap_eventsBefore (tries : Challenge → Nat) (k : Challenge)
    (rs : List Request) :
    (eventsBefore tries k rs).filterMap Transcript.Event.message? = saidBefore k rs := by
  induction rs with
  | nil => rfl
  | cons r rs ih =>
      rw [eventsBefore, saidBefore, List.filterMap_append, Transcript.Event.filterMap_said]
      split
      · rfl
      · rw [List.filterMap_append, filterMap_draws, ih, List.nil_append]

/-! ### Proofs -/

/-- The requests that lead to a proof. -/
def Proof.requests {G : Type} [Encoded G] (P : Proof G) : List Request :=
  [⟨.gamma, P.commitments.wires.toList.map .element⟩,
    ⟨.alpha, [.element P.commitments.accumulator]⟩,
    ⟨.zeta, [.element P.commitments.quotient]⟩,
    ⟨.bundle, (P.values.toList ++ [P.zNext]).map .scalar⟩]

/-- With notes, the answers are the same, and the notes are the requests of the proof. -/
theorem Proof.replay_noted_iff {σ G : Type} [Encoded G] {source : ChallengeSource σ} {P : Proof G}
    {s s' : σ} {asked asked' : List Request} {ch : Challenges} :
    (P.replay (ChallengeSource.noted source)).run (s, asked) = .ok (ch, s', asked') ↔
      (P.replay source).run s = .ok (ch, s') ∧ asked ++ P.requests = asked' := by
  simp only [replay, run_bind_eq_ok_iff, run_pure_eq_ok_iff, Prod.exists,
    ChallengeSource.noted_eq_ok_iff]
  constructor
  · rintro ⟨gamma, s₁, _, ⟨hgamma, rfl⟩, alpha, s₂, _, ⟨halpha, rfl⟩, zeta, s₃, _, ⟨hzeta, rfl⟩,
      v, s₄, _, ⟨hv, rfl⟩, rfl, hs⟩
    obtain ⟨rfl, rfl⟩ := Prod.mk.inj hs
    refine ⟨⟨gamma, s₁, hgamma, alpha, s₂, halpha, zeta, s₃, hzeta, v, s₄, hv, rfl, rfl⟩, ?_⟩
    simp [requests]
  · rintro ⟨⟨gamma, s₁, hgamma, alpha, s₂, halpha, zeta, s₃, hzeta, v, s₄, hv, rfl, rfl⟩, rfl⟩
    refine ⟨gamma, s₁, _, ⟨hgamma, rfl⟩, alpha, s₂, _, ⟨halpha, rfl⟩, zeta, s₃, _, ⟨hzeta, rfl⟩,
      v, s₄, _, ⟨hv, rfl⟩, rfl, ?_⟩
    simp [requests]

/-- The challenges of a transcript for what a proof holds: each is drawn from the fold of all that
was said and drawn before. -/
theorem Proof.replay_source_iff {G : Type} [Encoded G] {P : Proof G} {order : Nat}
    {t t' : Transcript} {ch : Challenges} :
    (P.replay (Transcript.source order)).run t = .ok (ch, t') ↔ ∃ tries : Challenge → Nat,
      (∀ k : Challenge, Transcript.IsChallenge order k.label
        (t.afterAll (Request.eventsBefore tries k P.requests)) (tries k) (ch.get k)) ∧
      t.afterAll (Request.events tries P.requests) = t' := by
  simp only [replay, run_bind_eq_ok_iff, run_pure_eq_ok_iff, Transcript.source_eq_ok_iff,
    Challenge.forall_iff, Challenges.get, requests, Request.eventsBefore, Request.events,
    List.flatMap_cons, List.flatMap_nil, List.append_nil, Transcript.afterAll_append,
    Transcript.afterAll_nil, Transcript.afterAll_said, Transcript.afterAll_draws, reduceCtorEq,
    if_true, if_false]
  -- Now both sides are the same four draws, on the left with the transcripts between them.
  constructor
  · rintro ⟨gamma, _, ⟨n₁, hgamma, rfl⟩, alpha, _, ⟨n₂, halpha, rfl⟩, zeta, _, ⟨n₃, hzeta, rfl⟩,
      v, _, ⟨n₄, hv, rfl⟩, rfl, rfl⟩
    exact ⟨Challenge.each n₁ n₂ n₃ n₄, ⟨hgamma, halpha, hzeta, hv⟩, rfl⟩
  · rintro ⟨tries, ⟨hgamma, halpha, hzeta, hv⟩, rfl⟩
    exact ⟨ch.gamma, _, ⟨_, hgamma, rfl⟩, ch.alpha, _, ⟨_, halpha, rfl⟩, ch.zeta, _,
      ⟨_, hzeta, rfl⟩, ch.bundle, _, ⟨_, hv, rfl⟩, rfl, rfl⟩

namespace Preprocessed

variable {G₁ G₂ : Type}

section

variable [Encoded G₁] (pd : Preprocessed G₁ G₂) (tries : Challenge → Nat) (k : Challenge)
  (asked : List Request)

/-- What a prover says before the draws of a challenge, of the circuit and of the proof. -/
def saidBefore : List Message := pd.preamble ++ Request.saidBefore k asked

/-- What a prover says and draws before the draws of a challenge. -/
def eventsBefore : List Transcript.Event :=
  pd.preamble.map .said ++ Request.eventsBefore tries k asked

/-- All that a prover says and draws. -/
def events : List Transcript.Event := pd.preamble.map .said ++ Request.events tries asked

/-- Leaving out the draws, what happened before a challenge is what was said before it. -/
theorem filterMap_eventsBefore :
    (pd.eventsBefore tries k asked).filterMap Transcript.Event.message? = pd.saidBefore k asked := by
  rw [eventsBefore, List.filterMap_append, Transcript.Event.filterMap_said,
    Request.filterMap_eventsBefore, saidBefore]

end

variable [SMul Scalar G₁] [Zero G₁] [Add G₁] [Encoded G₁]

/-- The prover with a transcript, and with notes of its requests. -/
def dialogue (pd : Preprocessed G₁ G₂) (c : Circuit) (w : List Scalar) (t : Transcript) :
    Except Fault (Proof G₁ × Transcript × List Request) :=
  (pd.proveFrom (ChallengeSource.noted (Transcript.source pd.domain.size)) c w).run
    (t.absorbAll pd.preamble, [])

variable {pd : Preprocessed G₁ G₂} {c : Circuit} {w : List Scalar} {t t' : Transcript}
  {P : Proof G₁} {asked : List Request}

/-- The notes are the requests of the proof, and the proof is the same without them. -/
theorem dialogue_eq_ok_iff :
    pd.dialogue c w t = .ok (P, t', asked) ↔ pd.prove c w t = .ok (P, t') ∧ asked = P.requests := by
  rw [dialogue, prove, proveFrom_eq_ok_iff_proveWith, proveFrom_eq_ok_iff_proveWith]
  simp only [Proof.replay_noted_iff, List.nil_append]
  constructor
  · rintro ⟨ch, ⟨hreplay, rfl⟩, hP⟩
    exact ⟨⟨ch, hreplay, hP⟩, rfl⟩
  · rintro ⟨⟨ch, hreplay, hP⟩, rfl⟩
    exact ⟨ch, ⟨hreplay, rfl⟩, hP⟩

/-- The prover gives a proof exactly with the challenges that are drawn from the fold of what it
says: first of the circuit, then of the proof. -/
theorem prove_eq_ok_iff_drawn : pd.prove c w t = .ok (P, t') ↔
    ∃ (ch : Challenges) (tries : Challenge → Nat), pd.proveWith c w ch = .ok P ∧
      (∀ k : Challenge, Transcript.IsChallenge pd.domain.size k.label
        (t.afterAll (pd.eventsBefore tries k P.requests)) (tries k) (ch.get k)) ∧
      t.afterAll (pd.events tries P.requests) = t' := by
  rw [prove, proveFrom_eq_ok_iff_proveWith]
  simp only [Proof.replay_source_iff, eventsBefore, events, Transcript.afterAll_append,
    Transcript.afterAll_said]
  constructor
  · rintro ⟨ch, ⟨tries, hdrawn, hend⟩, hP⟩
    exact ⟨ch, tries, hP, hdrawn, hend⟩
  · rintro ⟨ch, tries, hP, hdrawn, hend⟩
    exact ⟨ch, ⟨tries, hdrawn, hend⟩, hP⟩

end Preprocessed

end PlonkKzg
