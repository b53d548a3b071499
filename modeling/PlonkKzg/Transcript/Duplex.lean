import PlonkKzg.Transcript.Keccak

/-!
# Duplex operations

A sponge on the Keccak permutation that absorbs and squeezes byte by byte, in operations that are
marked off from each other. An operation begins by absorbing its kind and the place where the one
before began, so that no sequence of operations can stand for another.

* `Duplex.rate` — how many bytes lie between two permutations;
* `Duplex` — the permutation's state, the place of the next byte, and where the operation began;
* `Duplex.absorb`, `Duplex.squeeze` — data in and out;
* `Duplex.begin` — the head of an operation;
* `Duplex.describe`, `Duplex.send`, `Duplex.draw` — the operations that the transcript is made of:
  data about data, data, and pseudorandom bytes.
-/

namespace PlonkKzg

/-- The number of bytes between two permutations. -/
def Duplex.rate : Nat := 166

/-- A sponge inside an operation. -/
structure Duplex where
  lanes : Keccak.State
  /-- The place of the next byte. -/
  position : Fin Duplex.rate
  /-- One more than the place at which the operation began, or zero before the last permutation. -/
  start : Nat

namespace Duplex

/-- The mark of operations that bring data in. -/
def inward : UInt8 := 1

/-- The mark of operations of the application. -/
def application : UInt8 := 2

/-- The mark of operations that begin behind a permutation. -/
def ciphering : UInt8 := 4

/-- The mark of operations whose data describe other data. -/
def aboutData : UInt8 := 16

/-- The permutation, after the place that was reached and where the operation began have been
marked. -/
def turn (lanes : Keccak.State) (reached : Fin (rate + 1)) (start : Nat) : Duplex :=
  let lanes := Keccak.xorByte lanes (reached.castLE (by decide)) (UInt8.ofNat start)
  let lanes := Keccak.xorByte lanes (reached.succ.castLE (by decide)) 0x04
  let lanes := Keccak.xorByte lanes ⟨rate + 1, by decide⟩ 0x80
  ⟨Keccak.permute lanes, ⟨0, by decide⟩, 0⟩

/-- On to the next place, with a permutation at the end of the rate. -/
def advance (d : Duplex) : Duplex :=
  if h : d.position.val + 1 < rate then { d with position := ⟨d.position.val + 1, h⟩ }
  else turn d.lanes d.position.succ d.start

def place (d : Duplex) : Fin 200 := d.position.castLE (by decide)

def absorbByte (d : Duplex) (b : UInt8) : Duplex :=
  advance { d with lanes := Keccak.xorByte d.lanes d.place b }

def absorb (d : Duplex) (bs : List UInt8) : Duplex := bs.foldl absorbByte d

theorem absorb_append (d : Duplex) (as bs : List UInt8) :
    d.absorb (as ++ bs) = (d.absorb as).absorb bs := List.foldl_append

/-- A number of bytes out. What was read is cleared. -/
def squeeze : Nat → Duplex → List UInt8 × Duplex
  | 0, d => ([], d)
  | k + 1, d =>
      let b := Keccak.byte d.lanes d.place
      let rest := squeeze k (absorbByte d b)
      (b :: rest.1, rest.2)

/-- The head of an operation: where the last one began, and the kind of this one. Operations that
depend on the permutation start behind one. -/
def begin (d : Duplex) (kind : UInt8) : Duplex :=
  let started := { d with start := d.position.val + 1 }
  let headed := started.absorb [UInt8.ofNat d.start, kind]
  if kind &&& ciphering ≠ 0 ∧ headed.position.val ≠ 0 then
    turn headed.lanes headed.position.castSucc headed.start
  else headed

/-- An operation for data that describe other data. -/
def describe (d : Duplex) (bs : List UInt8) : Duplex :=
  (d.begin (aboutData ||| application)).absorb bs

def send (d : Duplex) (bs : List UInt8) : Duplex := (d.begin application).absorb bs

def draw (k : Nat) (d : Duplex) : List UInt8 × Duplex :=
  squeeze k (d.begin (inward ||| application ||| ciphering))

/-- The bytes from which the state is made: the rate, the width, and the name of the mode. -/
def seed : List UInt8 :=
  [1, 168, 1, 0, 1, 96] ++ "STROBEv1.0.2".toUTF8.toList

def new (protocol : List UInt8) : Duplex :=
  let filled := (Duplex.mk Keccak.zero ⟨0, by decide⟩ 0).absorb seed
  (Duplex.mk (Keccak.permute filled.lanes) ⟨0, by decide⟩ 0).describe protocol

end Duplex

end PlonkKzg
