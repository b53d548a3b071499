import PlonkKzg.Error
import PlonkKzg.Field.Residue

/-!
# Scalars

The prime field whose order is the order of the three pairing groups. Polynomials, witnesses and
challenges have their values here.

* `Scalar.order` — the prime `r`;
* `Scalar.generator` — the element 5, which is not a square and generates all non-zero elements;
* `Scalar.ofDecimal?`, `Scalar.decimal` — decimal text;
* `Scalar.toBytes`, `Scalar.ofBytes?` — 32 little-endian bytes;
* `Scalar.inverse`, `Scalar.invertAll` — inversion of one element, and of a list by way of one
  inversion;
* `Scalar.powerLimbs` — powers whose exponent is given in 64-bit limbs.
-/

namespace PlonkKzg

def Scalar.order : Nat :=
  21888242871839275222246405745257275088548364400416034343698204186575808495617

instance Scalar.order_modulus : Modulus Scalar.order := ⟨by decide⟩

abbrev Scalar : Type := Residue Scalar.order

namespace Scalar

def ofNat (n : Nat) : Scalar := Residue.ofNat order n

/-- The smallest generator of the multiplicative group. -/
def generator : Scalar := ofNat 5

def decimal (a : Scalar) : String := toString a.val

/-- The number that a list of decimal digits writes after `acc`, if all are digits. -/
def readDigits (acc : Nat) : List Char → Option Nat
  | [] => some acc
  | c :: cs => if c.isDigit then readDigits (10 * acc + (c.toNat - 48)) cs else none

/-- The residue of the number that a text writes. The text has digits only, at least one, and no
leading zero unless it is the text of zero. -/
def ofDecimal? (text : String) : Except AlgebraError Scalar :=
  match text.toList with
  | [] => .error .undecodable
  | ['0'] => .ok 0
  | '0' :: _ => .error .undecodable
  | cs =>
    match readDigits 0 cs with
    | some n => .ok (ofNat n)
    | none => .error .undecodable

def byteLength : Nat := 32

/-- The canonical representative in 32 bytes, least significant first. -/
def toBytes (a : Scalar) : List UInt8 := Residue.toBytes byteLength a

/-- Reads a representative below the order from at most 32 bytes; missing bytes count as zero. -/
def ofBytes? (bs : List UInt8) : Except AlgebraError Scalar :=
  if bs.length ≤ byteLength then
    match Residue.ofBytes? order bs with
    | some a => .ok a
    | none => .error .undecodable
  else .error .undecodable

@[simp] theorem toBytes_length (a : Scalar) : a.toBytes.length = byteLength :=
  Residue.toBytes_length _ a

theorem order_le : order ≤ Nat.pow 256 byteLength := by decide

theorem ofBytes?_toBytes (a : Scalar) : ofBytes? a.toBytes = .ok a := by
  unfold ofBytes?
  rw [toBytes_length, if_pos (Nat.le_refl _), toBytes, Residue.ofBytes?_toBytes order_le]

def orderBytes : List UInt8 := littleEndian byteLength order

def inverse (a : Scalar) : Except AlgebraError Scalar :=
  match a.inverse? with
  | some b => .ok b
  | none => .error .notInvertible

/-- The inverse of `acc` times the product of the list, and the inverse of each element, all from
one inversion: below an element the accumulated product contains it, so the inverse that comes
back up is multiplied by the product before it for the element, and by the element itself for the
rest. -/
def invertFrom (acc : Scalar) : List Scalar → Scalar × List Scalar
  | [] => (acc⁻¹, [])
  | x :: xs =>
      let below := invertFrom (acc * x) xs
      (below.1 * x, below.1 * acc :: below.2)

/-- The inverses of all elements, or an error if one of them is zero. -/
def invertAll (xs : List Scalar) : Except AlgebraError (List Scalar) :=
  if 0 ∈ xs then .error .notInvertible else .ok (invertFrom 1 xs).2

/-- The number that a list of 64-bit limbs writes, least significant limb first. -/
def ofLimbs : List UInt64 → Nat
  | [] => 0
  | l :: ls => l.toNat + UInt64.size * ofLimbs ls

def powerLimbs (a : Scalar) (limbs : List UInt64) : Scalar := power a (ofLimbs limbs)

example : ofDecimal? "007" = .error .undecodable := by rfl
example : (ofNat order).val = 0 := by decide
example : (generator.legendre) = .nonsquare := by decide +kernel

end Scalar

end PlonkKzg
