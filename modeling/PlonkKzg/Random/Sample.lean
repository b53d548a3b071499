import PlonkKzg.Random.ChaCha
import PlonkKzg.Field.Scalar
import PlonkKzg.Field.Fq2
import PlonkKzg.Curve.Multiple
import PlonkKzg.Curve.Compressed

/-!
# Random elements

Uniform elements of fields and curves, by drawing candidates until one is acceptable.

* `Residue.random` — a candidate is a number of 254 bits; the first one below the modulus counts,
  and it stands for itself divided by `2 ^ 256`;
* `Fq2.random` — two elements of the base field;
* `CurvePoint.random` — a candidate is a first coordinate with a choice of sign; the first one that
  has a point counts, multiplied by the cofactor of the curve;
* `attempts` — the bound on the number of candidates. A draw that finds none among them gives
  zero; a candidate is refused about one time in four, or one time in two, so that this
  does not happen in any run.
-/

namespace PlonkKzg

/-- The number of candidates that a draw looks at. -/
def attempts : Nat := 1024

/-- The next 256 bits, least significant limb first, without the two highest. -/
def nextCandidate : Draw Nat := do
  let l0 ← nextU64
  let l1 ← nextU64
  let l2 ← nextU64
  let l3 ← nextU64
  pure (Scalar.ofLimbs [l0, l1, l2, l3] % Nat.pow 2 254)

namespace Residue

variable {m : Nat} [Modulus m]

/-- The first candidate below the modulus among `k`, divided by `2 ^ 256`. -/
def randomWithin (m : Nat) [Modulus m] : Nat → Draw (Residue m)
  | 0 => pure 0
  | k + 1 => do
      let n ← nextCandidate
      if h : n < m then pure (⟨n, h⟩ * (ofNat m (Nat.pow 2 256))⁻¹) else randomWithin m k

end Residue

def Scalar.random : Draw Scalar := Residue.randomWithin Scalar.order attempts

def Fq.random : Draw Fq := Residue.randomWithin Fq.order attempts

def Fq2.random : Draw Fq2 := do
  let c0 ← Fq.random
  let c1 ← Fq.random
  pure ⟨c0, c1⟩

/-- The scalar that 32 bytes give as the seed of a generator. -/
def Scalar.ofSeed (seed : List UInt8) : Scalar := (Scalar.random.run ⟨seed, 0⟩).1

namespace CurvePoint

variable {K : Type} [Zero K] [One K] [Add K] [Sub K] [Neg K] [Mul K] [Inv K] [DecidableEq K]
variable [Coordinate K]

/-- The point of the first candidate that has one among `k`. -/
def randomWithin (b : K) (coordinate : Draw K) : Nat → Draw (CurvePoint b)
  | 0 => pure 0
  | k + 1 => do
      let x ← coordinate
      let sign ← nextU32
      match ofAbscissa? b x (decide (0x80000000 ≤ sign)) with
      | some P => pure P
      | none => randomWithin b coordinate k

/-- A uniform point of the subgroup that a cofactor leaves. -/
def random (b : K) (coordinate : Draw K) (cofactor : Nat) : Draw (CurvePoint b) := do
  let P ← randomWithin b coordinate attempts
  pure (P.times cofactor)

end CurvePoint

end PlonkKzg
