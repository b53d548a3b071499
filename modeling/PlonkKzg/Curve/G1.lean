import PlonkKzg.Field.Scalar
import PlonkKzg.Field.Fq
import PlonkKzg.Random.Sample

/-!
# The first pairing group

The curve `y² = x³ + 3` over the base field. It has exactly `Scalar.order` points.

* `G1` — its points, acted on by the scalars;
* `G1.generator` — the point `(1, 2)`;
* `G1.toBytes`, `G1.ofBytes?` — 32 bytes;
* `G1.display` — the coordinates in decimal.
-/

namespace PlonkKzg

instance : Coordinate Fq where
  width := Fq.byteLength
  toBytes := Fq.toBytes
  ofBytes? := Fq.ofBytes?
  sqrt? := Fq.sqrt?
  larger := Fq.larger

def G1.b : Fq := Fq.ofNat 3

/-- A point of the first pairing group. -/
abbrev G1 : Type := CurvePoint G1.b

namespace G1

instance : SMul Scalar G1 := ⟨fun k P => P.times k.val⟩

def generator : G1 := ⟨.affine (Fq.ofNat 1) (Fq.ofNat 2), by decide⟩

/-- Whether a point has an order that divides the order of the scalars. -/
def inSubgroup (P : G1) : Bool := decide (P.times Scalar.order = 0)

def toBytes (P : G1) : List UInt8 := P.compress

/-- The point that the first bytes write, if it lies in the group. -/
def ofBytes? (bs : List UInt8) : Except AlgebraError G1 :=
  match CurvePoint.decompress? G1.b bs with
  | some P => if inSubgroup P then .ok P else .error .undecodable
  | none => .error .undecodable

def byteLength : Nat := Fq.byteLength

def random : Draw G1 := CurvePoint.random G1.b Fq.random 1

def display (P : G1) : String :=
  match P.point with
  | .infinity => "infinity"
  | .affine x y => "(" ++ x.display ++ ", " ++ y.display ++ ")"

end G1

end PlonkKzg
