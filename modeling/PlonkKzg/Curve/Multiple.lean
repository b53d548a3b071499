import PlonkKzg.Curve.Point

/-!
# Multiples of a point

Multiplication of a point by a number takes hundreds of additions, and an addition in affine
coordinates takes an inversion. Here the additions are made in coordinates `(X, Y, Z)` that stand
for the point `(X / Z², Y / Z³)`, and one inversion at the end returns to affine ones.

* `Jacobian K` — the three coordinates; `Z = 0` stands for the point at infinity;
* `Jacobian.double`, `Jacobian.addAffine` — the two steps of the multiplication;
* `CurvePoint.times n P` — the `n`-fold sum of `P`.
-/

namespace PlonkKzg

/-- The coordinates of the point `(X / Z², Y / Z³)`. -/
structure Jacobian (K : Type) where
  X : K
  Y : K
  Z : K

namespace Jacobian

variable {K : Type} [Zero K] [One K] [Add K] [Sub K] [Neg K] [Mul K] [Inv K] [DecidableEq K]

def infinity : Jacobian K := ⟨1, 1, 0⟩

def toPoint (P : Jacobian K) : Point K :=
  if P.Z = 0 then .infinity
  else
    let i := P.Z⁻¹
    let i2 := i * i
    .affine (P.X * i2) (P.Y * (i2 * i))

def double (P : Jacobian K) : Jacobian K :=
  let a := P.X * P.X
  let b := P.Y * P.Y
  let c := b * b
  let d := (P.X + b) * (P.X + b) - a - c
  let d := d + d
  let e := a + a + a
  let x := e * e - (d + d)
  let c2 := c + c
  let c4 := c2 + c2
  let yz := P.Y * P.Z
  ⟨x, e * (d - x) - (c4 + c4), yz + yz⟩

def addAffine (P : Jacobian K) (x y : K) : Jacobian K :=
  if P.Z = 0 then ⟨x, y, 1⟩
  else
    let zz := P.Z * P.Z
    let h := x * zz - P.X
    let r := y * (zz * P.Z) - P.Y
    if h = 0 then
      if r = 0 then P.double else infinity
    else
      let hh := h * h
      let hhh := h * hh
      let v := P.X * hh
      let x₃ := r * r - hhh - (v + v)
      ⟨x₃, r * (v - x₃) - P.Y * hhh, P.Z * h⟩

/-- The multiple of an affine point by the number that the `k` low bits of `n` write. The higher
bits come first: their multiple is doubled, and the lowest bit adds the point once more. -/
def timesBits (x y : K) : Nat → Nat → Jacobian K
  | 0, _ => infinity
  | k + 1, n =>
      let rest := (timesBits x y k (n / 2)).double
      if n % 2 = 1 then rest.addAffine x y else rest

end Jacobian

variable {K : Type} [Zero K] [One K] [Add K] [Sub K] [Neg K] [Mul K] [Inv K] [DecidableEq K]

def Point.times (n : Nat) : Point K → Point K
  | .infinity => .infinity
  | .affine x y => (Jacobian.timesBits x y (n.log2 + 1) n).toPoint

def CurvePoint.times {b : K} (n : Nat) (P : CurvePoint b) : CurvePoint b :=
  ofPoint b (P.point.times n)

end PlonkKzg
