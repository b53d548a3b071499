import PlonkKzg.Error
import PlonkKzg.Field.Scalar
import PlonkKzg.Curve.G1
import PlonkKzg.Curve.G2
import PlonkKzg.Pairing.Target
import PlonkKzg.Text.Base64
import PlonkKzg.Wire.Codec

/-!
# Encoded elements

Scalars and group elements are encoded by their bytes: as base64 text in JSON, and in binary form
as the number of the bytes followed by the bytes.

* `Encoded α` — a byte form, and the error by which readers report bytes that write nothing;
* `ReadError` — why an element could not be read;
* `Encoded.ofJson`, `Encoded.ofBinary`, `Encoded.ofSequence`, `Encoded.ofRaw` — the readers;
* `Encoded.codec` — the codec of such a type.
-/

namespace PlonkKzg

/-- A type whose values have a byte form. -/
class Encoded (α : Type) where
  toBytes : α → List UInt8
  ofBytes? : List UInt8 → Except AlgebraError α
  /-- The error that readers report for bytes that write no value. -/
  refusal : AlgebraError

instance : Encoded Scalar := ⟨Scalar.toBytes, Scalar.ofBytes?, .undecodable⟩

instance : Encoded G1 := ⟨G1.toBytes, G1.ofBytes?, .unencodable⟩

instance : Encoded G2 := ⟨G2.toBytes, G2.ofBytes?, .unencodable⟩

instance : Encoded Gt := ⟨Gt.toBytes, Gt.ofBytes?, .unencodable⟩

/-- Why an element could not be read. -/
inductive ReadError where
  /-- The text is not base64, or the bytes write no value. -/
  | refused (cause : AlgebraError)
  /-- A JSON value other than a text. -/
  | wrongKind (found : Json)
  /-- A number in a sequence of bytes that is no byte. -/
  | noByte (n : Nat)
  /-- The binary data end too early. -/
  | truncated

/-- The text of an error, if it has one. -/
def ReadError.message? : ReadError → Option String
  | .refused cause => some cause.message
  | .wrongKind found =>
      some ("invalid type: " ++ found.describe ++ ", expected a valid PrismFromTo Object")
  | .noByte n => some ("invalid value: integer `" ++ toString n ++ "`, expected u8")
  | .truncated => none

namespace Encoded

variable {α : Type} [Encoded α]

def ofRaw (bs : List UInt8) : Except ReadError α :=
  match ofBytes? bs with
  | .ok a => .ok a
  | .error _ => .error (.refused (refusal α))

def toText (a : α) : String := Base64.encode (toBytes a)

/-- The value of a JSON value, which has to be a base64 text. -/
def ofJson : Json → Except ReadError α
  | .text s =>
      match Base64.decode? s with
      | some bs => ofRaw bs
      | none => .error (.refused .undecodable)
  | v => .error (.wrongKind v)

def readBytes : List Nat → Except ReadError (List UInt8)
  | [] => .ok []
  | n :: ns => do
      if 256 ≤ n then throw (.noByte n)
      let bs ← readBytes ns
      pure (UInt8.ofNat n :: bs)

/-- The value of a sequence of bytes that is given number by number. -/
def ofSequence (ns : List Nat) : Except ReadError α := do ofRaw (← readBytes ns)

/-- The number of bytes as a word, then the bytes. -/
def toBinary (a : α) : List UInt8 :=
  let bs := toBytes a
  Codec.putWord (UInt64.ofNat bs.length) ++ bs

/-- The bytes behind their number. -/
def lengthPrefixed? (data : List UInt8) : Option (List UInt8 × List UInt8) := do
  let (n, data) ← Codec.getWord? data
  splitBytes? n.toNat data

/-- The value of binary data, and what follows it. -/
def ofBinary (data : List UInt8) : Except ReadError (α × List UInt8) :=
  match lengthPrefixed? data with
  | none => .error .truncated
  | some (bs, rest) => do
      let a ← ofRaw bs
      pure (a, rest)

def codec (α : Type) [Encoded α] : Codec α where
  toJson a := .text (toText a)
  ofJson? v := (ofJson v).toOption
  put := toBinary
  get? data := (ofBinary data).toOption

end Encoded

end PlonkKzg
