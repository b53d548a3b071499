import PlonkKzg.Proofs.Curve.Compressed
import PlonkKzg.Proofs.Field.ScalarEncoding
import PlonkKzg.Proofs.Prover.Dialogue
import PlonkKzg.Proofs.Prover.PublicData
import PlonkKzg.Proofs.Prover.Zeros
import PlonkKzg.Proofs.Transcript.Operations

/-!
# What the messages bind

What a prover says before it draws a challenge tells for which circuit it is, and which proof, as
far as the proof was made by then. So who wants another circuit or another commitment gets another
challenge.

* `Message.element_inj`, `Message.scalar_inj`, `Message.word_inj` — messages tell what they are made
  from;
* `Preprocessed.SameStatement`, `Preprocessed.preamble_inj` — the public data that are said first;
* `Proof.AgreesUpTo`, `Proof.saidBefore_requests_inj` — the parts of a proof that are said before a
  challenge;
* `Circuit.operations_bind` — what the sponge of the transcript is brought tells the same;
* `Circuit.challenges_bind` — the challenges of a proof are drawn from the fold of messages that
  bind both.
-/

namespace PlonkKzg

/-! ### Messages -/

/-- Numbers that fit are determined by their bytes. -/
theorem littleEndian_injective {k n n' : Nat} (hn : n < 256 ^ k) (hn' : n' < 256 ^ k)
    (h : littleEndian k n = littleEndian k n') : n = n' := by
  have hvalue := congrArg ofLittleEndian h
  rwa [ofLittleEndian_littleEndian, ofLittleEndian_littleEndian, Nat.pow_eq, Nat.mod_eq_of_lt hn,
    Nat.mod_eq_of_lt hn'] at hvalue

namespace Message

/-- A message of a group element determines the element. -/
theorem element_inj {P Q : G1} : element P = element Q ↔ P = Q := by
  constructor
  · intro h
    exact G1.toBytes_injective (congrArg body h)
  · intro h
    rw [h]

theorem scalar_inj {a b : Scalar} : scalar a = scalar b ↔ a = b := by
  constructor
  · intro h
    exact Scalar.toBytes_injective (congrArg body h)
  · intro h
    rw [h]

theorem word_inj {label : String} {m n : Nat} (hm : m < 2 ^ 64) (hn : n < 2 ^ 64) :
    word label m = word label n ↔ m = n := by
  constructor
  · intro h
    exact littleEndian_injective hm hn (congrArg body h)
  · intro h
    rw [h]

end Message

/-! ### The public data -/

/-- The public data that a prover says first are the same. -/
structure Preprocessed.SameStatement {G₁ G₂ : Type} (pd₁ pd₂ : Preprocessed G₁ G₂) : Prop where
  size : pd₁.size = pd₂.size
  selectorCommitments : pd₁.selectorCommitments = pd₂.selectorCommitments
  sigmaCommitments : pd₁.sigmaCommitments = pd₂.sigmaCommitments
  generator : pd₁.domain.generator = pd₂.domain.generator
  shifters : pd₁.shifters = pd₂.shifters

/-- Equal preambles are equal statements. -/
theorem Preprocessed.preamble_inj {pd₁ pd₂ : Preprocessed G1 G2}
    (h₁ : pd₁.size < 2 ^ 64) (h₂ : pd₂.size < 2 ^ 64) :
    pd₁.preamble = pd₂.preamble ↔ pd₁.SameStatement pd₂ := by
  constructor
  · intro h
    simp only [preamble, List.cons_append, List.nil_append, Selectors.toList,
      Wires.toList, List.map_cons, List.map_nil, List.cons.injEq, Message.word_inj h₁ h₂,
      Message.element_inj, Message.scalar_inj, true_and, and_true] at h
    obtain ⟨hsize, hql, hqr, hqm, hqo, hqk, hl, hr, ho, hgenerator, hk1, hk2⟩ := h
    exact ⟨hsize, Selectors.ext hql hqr hqm hqo hqk, Wires.ext hl hr ho, hgenerator,
      Shifters.ext hk1 hk2⟩
  · rintro ⟨hsize, hselectors, hsigmas, hgenerator, hshifters⟩
    rw [preamble, preamble, hsize, hselectors, hsigmas, hgenerator, hshifters]

/-! ### The proof -/

/-- The parts of two proofs that are said before the draws of a challenge are the same. -/
def Proof.AgreesUpTo {G : Type} (P Q : Proof G) : Challenge → Prop
  | .gamma => P.commitments.wires = Q.commitments.wires
  | .alpha => P.commitments.wires = Q.commitments.wires ∧
      P.commitments.accumulator = Q.commitments.accumulator
  | .zeta => P.commitments = Q.commitments
  | .bundle => P.commitments = Q.commitments ∧ P.values = Q.values ∧ P.zNext = Q.zNext

/-- Equal messages up to a challenge are equal proof parts up to it. -/
theorem Proof.saidBefore_requests_inj {P Q : Proof G1} {k : Challenge} :
    Request.saidBefore k P.requests = Request.saidBefore k Q.requests ↔ P.AgreesUpTo Q k := by
  cases k <;>
    simp only [requests, Request.saidBefore, AgreesUpTo, Wires.toList, Committed.toList,
      List.map_cons, List.map_nil, List.cons_append, List.nil_append, List.append_nil,
      List.cons.injEq, reduceCtorEq, if_true, if_false, Message.element_inj, Message.scalar_inj,
      Wires.ext_iff, Committed.ext_iff, and_true] <;>
    tauto

namespace Circuit

variable {c₁ c₂ : Circuit} {scheme₁ scheme₂ : Scheme G1 G2} {pd₁ pd₂ : Preprocessed G1 G2}

/-- There are fewer gates than eight bytes can count. -/
theorem preprocess_size_lt (h : c₁.preprocess scheme₁ = .ok pd₁) : pd₁.size < 2 ^ 64 := by
  have hencodes := encodes_of_preprocess h
  have hdomain := pd₁.domain.size_le_two_pow
  have hrows := c₁.size_le_domainSize
  rw [hencodes.domainSize, maxLog] at hdomain
  rw [hencodes.size]
  omega

/-- Both together: all that was said before a challenge determines statement and proof parts. -/
theorem saidBefore_inj (h₁ : c₁.preprocess scheme₁ = .ok pd₁) (h₂ : c₂.preprocess scheme₂ = .ok pd₂)
    {P₁ P₂ : Proof G1} {k : Challenge} :
    pd₁.saidBefore k P₁.requests = pd₂.saidBefore k P₂.requests ↔
      pd₁.SameStatement pd₂ ∧ P₁.AgreesUpTo P₂ k := by
  have hlength : pd₁.preamble.length = pd₂.preamble.length := rfl
  rw [← Preprocessed.preamble_inj (preprocess_size_lt h₁) (preprocess_size_lt h₂),
    ← Proof.saidBefore_requests_inj, Preprocessed.saidBefore, Preprocessed.saidBefore]
  constructor
  · intro h
    exact List.append_inj h hlength
  · rintro ⟨hpreamble, hsaid⟩
    rw [hpreamble, hsaid]

/-- Two sponges that were brought the same operations before the draws of a challenge were told of
the same statement, and of proofs that agree so far, however many draws were thrown away. -/
theorem operations_bind (h₁ : c₁.preprocess scheme₁ = .ok pd₁) (h₂ : c₂.preprocess scheme₂ = .ok pd₂)
    {P₁ P₂ : Proof G1} {k : Challenge} {tries₁ tries₂ : Challenge → Nat}
    (h : (pd₁.eventsBefore tries₁ k P₁.requests).flatMap Transcript.Event.operations =
      (pd₂.eventsBefore tries₂ k P₂.requests).flatMap Transcript.Event.operations) :
    pd₁.SameStatement pd₂ ∧ P₁.AgreesUpTo P₂ k := by
  have hevents := Transcript.operations_injective h
  have hsaid := congrArg (List.filterMap Transcript.Event.message?) hevents
  rw [Preprocessed.filterMap_eventsBefore, Preprocessed.filterMap_eventsBefore] at hsaid
  exact (saidBefore_inj h₁ h₂).1 hsaid

/-- The prover draws each challenge from the fold of all that it said and drew before, which is the
sponge after the operations of these events. For public data of two circuits and for two proofs, the
messages before the draws of a challenge are the same exactly if the public data agree in all that
is said of them, and the proofs in all that they hold by then; and only then are the operations the
same. -/
theorem challenges_bind (h₁ : c₁.preprocess scheme₁ = .ok pd₁)
    (h₂ : c₂.preprocess scheme₂ = .ok pd₂) :
    (∀ (pd : Preprocessed G1 G2) (c : Circuit) (w : List Scalar) (t t' : Transcript)
        (P : Proof G1),
      (∀ asked, pd.dialogue c w t = .ok (P, t', asked) ↔
        pd.prove c w t = .ok (P, t') ∧ asked = P.requests) ∧
      (pd.prove c w t = .ok (P, t') ↔ ∃ (ch : Challenges) (tries : Challenge → Nat),
        pd.proveWith c w ch = .ok P ∧
          (∀ k : Challenge, Transcript.IsChallenge pd.domain.size k.label
            (t.afterAll (pd.eventsBefore tries k P.requests)) (tries k) (ch.get k)) ∧
          t.afterAll (pd.events tries P.requests) = t') ∧
      ∀ tries k, (pd.eventsBefore tries k P.requests).filterMap Transcript.Event.message? =
          pd.saidBefore k P.requests ∧
        (t.afterAll (pd.eventsBefore tries k P.requests)).sponge = t.sponge.afterAll
          ((pd.eventsBefore tries k P.requests).flatMap Transcript.Event.operations)) ∧
    ∀ (P₁ P₂ : Proof G1) (k : Challenge),
      (pd₁.saidBefore k P₁.requests = pd₂.saidBefore k P₂.requests ↔
        pd₁.SameStatement pd₂ ∧ P₁.AgreesUpTo P₂ k) ∧
      ∀ tries₁ tries₂, (pd₁.eventsBefore tries₁ k P₁.requests).flatMap Transcript.Event.operations =
          (pd₂.eventsBefore tries₂ k P₂.requests).flatMap Transcript.Event.operations →
        pd₁.SameStatement pd₂ ∧ P₁.AgreesUpTo P₂ k := by
  constructor
  · intro pd c w t t' P
    refine ⟨fun asked => Preprocessed.dialogue_eq_ok_iff, Preprocessed.prove_eq_ok_iff_drawn, ?_⟩
    intro tries k
    exact ⟨pd.filterMap_eventsBefore tries k P.requests, t.sponge_afterAll _⟩
  · intro P₁ P₂ k
    exact ⟨saidBefore_inj h₁ h₂, fun tries₁ tries₂ => operations_bind h₁ h₂⟩

/-- A proof on a transcript, and others with the same wires: what is said before the first challenge
is the same, and before the second one it is not if they differ in the accumulator. -/
theorem bit_challenges_bind : ∃ (pd : Preprocessed G1 G2) (P : Proof G1) (t' : Transcript),
    bit.preprocess (.ofSecret 7 1) = .ok pd ∧
    pd.prove bit [0, 0] (.new (utf8 "bit")) = .ok (P, t') ∧
    (∃ (ch : Challenges) (tries : Challenge → Nat), pd.proveWith bit [0, 0] ch = .ok P ∧
      ∀ k : Challenge, Transcript.IsChallenge pd.domain.size k.label
        ((Transcript.new (utf8 "bit")).afterAll (pd.eventsBefore tries k P.requests)) (tries k)
        (ch.get k)) ∧
    ∀ Q : Proof G1, P.commitments.wires = Q.commitments.wires →
      pd.saidBefore .gamma P.requests = pd.saidBefore .gamma Q.requests ∧
        (P.commitments.accumulator ≠ Q.commitments.accumulator →
          pd.saidBefore .alpha P.requests ≠ pd.saidBefore .alpha Q.requests) := by
  obtain ⟨pd, P, t', hpd, hP⟩ := bit_prove
  obtain ⟨hrun, hbind⟩ := challenges_bind hpd hpd
  obtain ⟨ch, tries, hproof, hdrawn, -⟩ := (hrun pd _ _ _ _ _).2.1.1 hP
  refine ⟨pd, P, t', hpd, hP, ⟨ch, tries, hproof, hdrawn⟩, ?_⟩
  intro Q hwires
  refine ⟨(hbind P Q .gamma).1.2 ⟨⟨rfl, rfl, rfl, rfl, rfl⟩, hwires⟩, ?_⟩
  intro hne halpha
  exact hne ((hbind P Q .alpha).1.1 halpha).2.2

end Circuit

end PlonkKzg
