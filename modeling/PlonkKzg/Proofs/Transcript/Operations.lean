import PlonkKzg.Proofs.Prover.Dialogue

/-!
# What a transcript records

A transcript brings every event to its sponge in two operations: one that says the label and the
length of the data, and one that brings the data in or takes them out. The operations tell the
events, so that two transcripts that began alike and saw different events have brought different
operations to their sponges.

* `Duplex.Operation`, `Duplex.after`, `Duplex.afterAll` — operations, and the sponge after them;
* `Duplex.record`, `Transcript.sponge_absorb` — the bytes that a message brings in;
* `Transcript.Event.operations` — the two operations of an event;
* `Transcript.sponge_afterAll` — after some events, the sponge has seen their operations;
* `Transcript.operations_injective` — and nothing else leads to these.
-/

namespace PlonkKzg

namespace Duplex

/-! ### Operations -/

inductive Operation where
  /-- Data about other data come in. -/
  | described (bs : List UInt8)
  /-- Data come in. -/
  | sent (bs : List UInt8)
  /-- A number of bytes go out. -/
  | drew (count : Nat)
deriving DecidableEq

def after (d : Duplex) : Operation → Duplex
  | .described bs => d.describe bs
  | .sent bs => d.send bs
  | .drew count => (d.draw count).2

def afterAll (d : Duplex) (ops : List Operation) : Duplex := ops.foldl after d

theorem afterAll_pair (d : Duplex) (op op' : Operation) :
    d.afterAll [op, op'] = (d.after op).after op' := rfl

/-- Two lists of operations, one after the other. -/
theorem afterAll_append (d : Duplex) (ops ops' : List Operation) :
    d.afterAll (ops ++ ops') = (d.afterAll ops).afterAll ops' := List.foldl_append

/-- An operation that no permutation has to precede brings in where the last one began, its own kind,
and its data. -/
theorem begin_absorb (d : Duplex) {kind : UInt8} (h : kind &&& ciphering = 0) (bs : List UInt8) :
    (d.begin kind).absorb bs =
      absorb { d with start := d.position.val + 1 } (UInt8.ofNat d.start :: kind :: bs) := by
  have hbegin : d.begin kind =
      absorb { d with start := d.position.val + 1 } [UInt8.ofNat d.start, kind] :=
    if_neg fun hturn => hturn.1 h
  rw [hbegin, ← absorb_append]
  rfl

/-- The bytes that an operation about other data or with data of its own brings in: where the last
operation began, the kind, the data. -/
def record (d : Duplex) (kind : UInt8) (bs : List UInt8) : Duplex :=
  absorb { d with start := d.position.val + 1 } (UInt8.ofNat d.start :: kind :: bs)

theorem describe_eq (d : Duplex) (bs : List UInt8) : d.describe bs = d.record 18 bs :=
  d.begin_absorb (by decide) bs

theorem send_eq (d : Duplex) (bs : List UInt8) : d.send bs = d.record 2 bs :=
  d.begin_absorb (by decide) bs

end Duplex

namespace Transcript

open Duplex (Operation)

/-! ### The operations of events -/

/-- The label of an event and the length of its data, then the data. -/
def Event.operations : Event → List Operation
  | .said m => [.described (heading m.label m.body.length), .sent m.body]
  | .drawn label => [.described (heading label 32), .drew 32]

/-- What a transcript records of a message: the label and the length in four bytes as data about
other data, then the body. -/
theorem sponge_absorb (t : Transcript) (m : Message) : (t.absorb m).sponge =
    (t.sponge.record 18 (m.label ++ littleEndian 4 m.body.length)).record 2 m.body := by
  rw [absorb, Duplex.describe_eq, Duplex.send_eq, heading]

/-- A challenge describes its label and length, then draws. -/
theorem sponge_challenge (t : Transcript) (label : List UInt8) :
    (t.challenge label).2.sponge = ((t.sponge.describe (heading label 32)).draw 32).2 := by
  rw [challenge, challengeBytes]

/-- What happens to the transcript happens to its sponge, operation by operation. -/
theorem sponge_after (t : Transcript) (e : Event) :
    (t.after e).sponge = t.sponge.afterAll e.operations := by
  cases e with
  | said m => rw [after, absorb, Event.operations, Duplex.afterAll_pair, Duplex.after, Duplex.after]
  | drawn label =>
      rw [after, sponge_challenge, Event.operations, Duplex.afterAll_pair, Duplex.after,
        Duplex.after]

/-- A transcript that saw some events has brought their operations to its sponge, in this order. -/
theorem sponge_afterAll (t : Transcript) (events : List Event) :
    (t.afterAll events).sponge = t.sponge.afterAll (events.flatMap Event.operations) := by
  induction events generalizing t with
  | nil => rfl
  | cons e events ih =>
      have hrest : t.afterAll (e :: events) = (t.after e).afterAll events := rfl
      rw [hrest, ih, sponge_after, List.flatMap_cons, Duplex.afterAll_append]

/-- A heading ends with the four bytes of the length, so what comes before them is the label. -/
theorem heading_inj {label label' : List UInt8} {n n' : Nat}
    (h : heading label n = heading label' n') : label = label' := by
  refine (List.append_inj' h ?_).1
  rw [littleEndian_length, littleEndian_length]

/-- The operations of the first event, and with them the event, can be told from those of the
rest. -/
theorem operations_append_inj {e e' : Event} {rest rest' : List Operation}
    (h : e.operations ++ rest = e'.operations ++ rest') : e = e' ∧ rest = rest' := by
  cases e with
  | said m =>
      cases e' with
      | said m' =>
          simp only [Event.operations, List.cons_append, List.nil_append, List.cons.injEq,
            Operation.described.injEq, Operation.sent.injEq] at h
          obtain ⟨hheading, hbody, hrest⟩ := h
          exact ⟨congrArg Event.said (Message.ext (heading_inj hheading) hbody), hrest⟩
      | drawn label' => simp [Event.operations] at h
  | drawn label =>
      cases e' with
      | said m' => simp [Event.operations] at h
      | drawn label' =>
          simp only [Event.operations, List.cons_append, List.nil_append, List.cons.injEq,
            Operation.described.injEq, true_and] at h
          exact ⟨congrArg Event.drawn (heading_inj h.1), h.2⟩

/-- Different events lead to different operations. -/
theorem operations_injective : Function.Injective fun events : List Event =>
    events.flatMap Event.operations := by
  have hne : ∀ (e : Event) (events : List Event), (e :: events).flatMap Event.operations ≠ [] := by
    intro e events
    cases e <;> simp [Event.operations]
  intro events
  induction events with
  | nil =>
      intro events' h
      cases events' with
      | nil => rfl
      | cons e' events' => exact absurd h.symm (hne e' events')
  | cons e events ih =>
      intro events' h
      cases events' with
      | nil => exact absurd h (hne e events)
      | cons e' events' =>
          simp only [List.flatMap_cons] at h
          obtain ⟨rfl, hrest⟩ := operations_append_inj h
          rw [ih hrest]

end Transcript

end PlonkKzg
