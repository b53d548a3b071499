import PlonkKzg.Field.Scalar
import PlonkKzg.Field.Fq2
import PlonkKzg.Random.Sample

/-!
# The second pairing group

The points of order `Scalar.order` on the twisted curve `y² = x³ + 3 / (9 + u)` over the quadratic
extension. The curve has `G2.cofactor` times as many points as the group.

* `G2` — the points of the curve, acted on by the scalars;
* `G2.generator` — the base point of the group;
* `G2.inSubgroup` — whether a point of the curve lies in the group;
* `G2.toBytes`, `G2.ofBytes?` — 64 bytes; points outside the group are refused;
* `G2.display` — the coordinates in decimal.
-/

namespace PlonkKzg

instance : Coordinate Fq2 where
  width := Fq2.byteLength
  toBytes := Fq2.toBytes
  ofBytes? := Fq2.ofBytes?
  sqrt? := Fq2.sqrt?
  larger := Fq2.larger

/-- The constant of the curve equation, `3 / (9 + u)`. -/
def G2.b : Fq2 := Fq2.ofFq (Fq.ofNat 3) * Fq2.xi⁻¹

/-- A point of the twisted curve. -/
abbrev G2 : Type := CurvePoint G2.b

namespace G2

instance : SMul Scalar G2 := ⟨fun k P => P.times k.val⟩

def generatorX : Fq2 :=
  ⟨Fq.ofNat 10857046999023057135944570762232829481370756359578518086990519993285655852781,
    Fq.ofNat 11559732032986387107991004021392285783925812861821192530917403151452391805634⟩

def generatorY : Fq2 :=
  ⟨Fq.ofNat 8495653923123431417604973247489272438418190587263600148770280649306958101930,
    Fq.ofNat 4082367875863433681332203403145435568316851327593401208105741076214120093531⟩

def generator : G2 := ⟨.affine generatorX generatorY, by decide +kernel⟩

/-- The number of points of the curve divided by the order of the group. -/
def cofactor : Nat :=
  21888242871839275222246405745257275088844257914179612981679871602714643921549

/-- Whether a point of the curve lies in the group. -/
def inSubgroup (P : G2) : Bool := decide (P.times Scalar.order = 0)

def toBytes (P : G2) : List UInt8 := P.compress

/-- The point that the first bytes write, if it lies in the group. -/
def ofBytes? (bs : List UInt8) : Except AlgebraError G2 :=
  match CurvePoint.decompress? G2.b bs with
  | some P => if inSubgroup P then .ok P else .error .undecodable
  | none => .error .undecodable

def byteLength : Nat := Fq2.byteLength

def random : Draw G2 := CurvePoint.random G2.b Fq2.random cofactor

/-- A coordinate, written as a sum. -/
def displayCoordinate (a : Fq2) : String :=
  "QuadExtField(" ++ a.c0.display ++ " + " ++ a.c1.display ++ " * u)"

def display (P : G2) : String :=
  match P.point with
  | .infinity => "infinity"
  | .affine x y => "(" ++ displayCoordinate x ++ ", " ++ displayCoordinate y ++ ")"

end G2

end PlonkKzg
