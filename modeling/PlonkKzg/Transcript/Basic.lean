import PlonkKzg.Random.Sample
import PlonkKzg.Transcript.Duplex
import PlonkKzg.Wire.Element

/-!
# Transcripts

What prover and verifier have said, from which the challenges are drawn.

* `Message` — a label and a body; `Message.element` and `Message.scalar` are those of commitments
  and of field elements;
* `Transcript.new` — a transcript that has said only its own name;
* `Transcript.absorb`, `Transcript.absorbAll` — one message more, and a list of them. Each enters
  with its label and its length, so that different lists enter as different bytes;
* `Transcript.challengeBytes`, `Transcript.challenge` — bytes, and a scalar from 32 of them.
-/

namespace PlonkKzg

def utf8 (s : String) : List UInt8 := s.toUTF8.toList

/-- What is said to a transcript. -/
@[ext] structure Message where
  label : List UInt8
  body : List UInt8
deriving DecidableEq, Repr

namespace Message

/-- A message whose label is a text. -/
def labelled (label : String) (body : List UInt8) : Message := ⟨utf8 label, body⟩

def element {G : Type} [Encoded G] (P : G) : Message :=
  labelled "append commitment" (Encoded.toBytes P)

def scalar (a : Scalar) : Message := labelled "append field point" a.toBytes

/-- A number in eight bytes. -/
def word (label : String) (n : Nat) : Message := labelled label (littleEndian 8 n)

end Message

/-- All that was said so far, folded into a sponge. -/
structure Transcript where
  sponge : Duplex

namespace Transcript

/-- A label, and the length of what follows it. -/
def heading (label : List UInt8) (length : Nat) : List UInt8 := label ++ littleEndian 4 length

def absorb (t : Transcript) (m : Message) : Transcript :=
  ⟨(t.sponge.describe (heading m.label m.body.length)).send m.body⟩

/-- A list of messages more. -/
def absorbAll (t : Transcript) (ms : List Message) : Transcript := ms.foldl absorb t

def new (name : List UInt8) : Transcript :=
  absorb ⟨Duplex.new (utf8 "Merlin v1.0")⟩ (.labelled "dom-sep" name)

def challengeBytes (label : List UInt8) (n : Nat) (t : Transcript) : List UInt8 × Transcript :=
  let (bs, sponge) := (t.sponge.describe (heading label n)).draw n
  (bs, ⟨sponge⟩)

/-- A scalar that 32 of these bytes are the seed of. -/
def challenge (label : List UInt8) (t : Transcript) : Scalar × Transcript :=
  let (seed, t) := t.challengeBytes label 32
  (Scalar.ofSeed seed, t)

end Transcript

end PlonkKzg
