import PlonkKzg.Bytes
import PlonkKzg.Curve.Point

/-!
# Compressed points

A point of a curve is written as its first coordinate; two bits that the last byte of a coordinate
leaves free tell which of the two possible second coordinates is meant, or that the point is the
one at infinity.

* `Coordinate K` — what is needed of a field: a byte form of fixed width, square roots and a
  choice between an element and its negative;
* `flagged`, `unflagged` — the last byte with the two bits, and without them;
* `CurvePoint.compress` — the bytes of a point;
* `CurvePoint.decompress?` — the point of bytes, if they write one. Bytes after the first
  `Coordinate.width` are not read.
-/

namespace PlonkKzg

/-- What compressed points need of the field of their coordinates. -/
class Coordinate (K : Type) where
  /-- How many bytes an element takes. -/
  width : Nat
  /-- The bytes of an element; the last one is below 64. -/
  toBytes : K → List UInt8
  /-- The element that the first bytes write, and the bytes that follow. -/
  ofBytes? : List UInt8 → Option (K × List UInt8)
  /-- A square root, if there is one. -/
  sqrt? : K → Option K
  /-- Whether an element is larger than its negative. -/
  larger : K → Bool

/-- What the two free bits of the last byte say. -/
inductive Flag where
  | smaller
  | infinity
  | larger
deriving DecidableEq, Repr

def Flag.bits : Flag → Nat
  | .smaller => 0
  | .infinity => 1
  | .larger => 2

/-- The flag of a number; both bits together mean nothing. -/
def Flag.ofBits? : Nat → Option Flag
  | 0 => some .smaller
  | 1 => some .infinity
  | 2 => some .larger
  | _ => none

theorem Flag.ofBits?_bits (f : Flag) : Flag.ofBits? f.bits = some f := by
  cases f <;> rfl

def flagged (f : Flag) : List UInt8 → List UInt8
  | [] => []
  | [b] => [UInt8.ofNat (b.toNat % 64 + 64 * f.bits)]
  | b :: c :: bs => b :: flagged f (c :: bs)

/-- Takes the two high bits out of the last byte. -/
def unflagged : List UInt8 → List UInt8 × Nat
  | [] => ([], 0)
  | [b] => ([UInt8.ofNat (b.toNat % 64)], b.toNat / 64)
  | b :: c :: bs =>
      let (rest, bits) := unflagged (c :: bs)
      (b :: rest, bits)

@[simp] theorem flagged_length (f : Flag) (bs : List UInt8) :
    (flagged f bs).length = bs.length := by
  fun_induction flagged f bs with
  | case1 => rfl
  | case2 => rfl
  | case3 b c bs ih => simp only [List.length_cons] at ih ⊢; omega

namespace CurvePoint

variable {K : Type} [Zero K] [One K] [Add K] [Sub K] [Neg K] [Mul K] [Inv K] [DecidableEq K]
variable [Coordinate K] {b : K}

def compress (P : CurvePoint b) : List UInt8 :=
  match P.point with
  | .infinity => flagged .infinity (Coordinate.toBytes (0 : K))
  | .affine x y =>
      flagged (if Coordinate.larger y then .larger else .smaller) (Coordinate.toBytes x)

/-- The point with a given first coordinate and the larger or smaller second one. -/
def ofAbscissa? (b x : K) (larger : Bool) : Option (CurvePoint b) := do
  let y ← Coordinate.sqrt? (Point.cubic b x)
  ofPoint? b (.affine x (if Coordinate.larger y = larger then y else -y))

/-- The point that the first bytes write. -/
def decompress? (b : K) (bs : List UInt8) : Option (CurvePoint b) := do
  let (front, _) ← splitBytes? (Coordinate.width K) bs
  let (plain, bits) := unflagged front
  let flag ← Flag.ofBits? bits
  let (x, _) ← Coordinate.ofBytes? plain
  match flag with
  | .infinity => some 0
  | .larger => ofAbscissa? b x true
  | .smaller => ofAbscissa? b x false

end CurvePoint

end PlonkKzg
