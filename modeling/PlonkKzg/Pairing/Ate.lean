import PlonkKzg.Curve.G1
import PlonkKzg.Curve.G2
import PlonkKzg.Pairing.Target

/-!
# The optimal ate pairing

The bilinear map from the two pairing groups to the target group. The curves belong to a family
with one parameter `z`; the pairing evaluates at a point `P` the function that a point `Q` of the
twist defines, and raises the value to a power that leaves only its part of order
`Scalar.order`.

* `Ate.line` — the line through two points of the twist, at `P`;
* `Ate.millerLoop` — the lines of the binary multiplication of `Q` by `6 z + 2`;
* `Ate.frobeniusPoint` — the Frobenius map, read on the twist;
* `Ate.finalPower` — the power `(p ^ 12 - 1) / r · 2 z (6 z² + 3 z + 1)`;
* `Ate.pair` — the pairing, zero if one of the points is at infinity.

A point `(x, y)` of the twist stands for the point `(x w², y w³)` of the first curve over `Fq12`.
Factors in `Fq6` disappear in the final power, so the vertical lines are left out.
-/

namespace PlonkKzg.Ate

/-- The parameter of the family of curves. -/
def z : Nat := 4965661367192848881

/-- The slope of the line through two points of the twist; the tangent if they are equal. -/
def slope (x₁ y₁ x₂ y₂ : Fq2) : Fq2 :=
  if x₁ = x₂ then (x₁ * x₁ + x₁ * x₁ + x₁ * x₁) * (y₁ + y₁)⁻¹ else (y₂ - y₁) * (x₂ - x₁)⁻¹

/-- The value at the point `(xP, yP)` of the line with a given slope on the twist through
`(x, y)`: the number `yP - slope · xP · w + (slope · x - y) · w³`. -/
def line (slope x y : Fq2) (xP yP : Fq) : Fq12 :=
  ⟨⟨Fq2.ofFq yP, 0, 0⟩, ⟨-Fq2.scale xP slope, slope * x - y, 0⟩⟩

/-- A value collected so far, and the multiple of `Q` that has been reached. -/
structure Walk where
  value : Fq12
  x : Fq2
  y : Fq2

/-- Multiplies the line to another point into the value and adds that point. -/
def Walk.step (s : Walk) (x₂ y₂ : Fq2) (xP yP : Fq) : Walk :=
  let m := slope s.x s.y x₂ y₂
  let x₃ := m * m - s.x - x₂
  ⟨s.value * line m s.x s.y xP yP, x₃, m * (s.x - x₃) - s.y⟩

def Walk.double (s : Walk) (xP yP : Fq) : Walk :=
  Walk.step ⟨s.value * s.value, s.x, s.y⟩ s.x s.y xP yP

/-- The walk to the multiple of `Q` by a one in front of the `k` low bits of `n`. -/
def walkBits (x y : Fq2) (xP yP : Fq) : Nat → Nat → Walk
  | 0, _ => ⟨1, x, y⟩
  | k + 1, n =>
      let s := (walkBits x y xP yP k (n / 2)).double xP yP
      if n % 2 = 1 then s.step x y xP yP else s

/-- The walk to the multiple by `6 z + 2`. -/
def millerLoop (x y : Fq2) (xP yP : Fq) : Walk :=
  let n := 6 * z + 2
  walkBits x y xP yP n.log2 (n - Nat.pow 2 n.log2)

/-- The factor of the first coordinate under the Frobenius map. -/
def frobeniusX : Fq2 := power Fq2.xi ((Fq.order - 1) / 3)

/-- The factor of the second coordinate under the Frobenius map. -/
def frobeniusY : Fq2 := power Fq2.xi ((Fq.order - 1) / 2)

/-- The Frobenius map of the first curve, on the coordinates of the twist. -/
def frobeniusPoint (x y : Fq2) : Fq2 × Fq2 := (frobeniusX * x.conj, frobeniusY * y.conj)

/-- The value before the final power: the walk, then the lines to the image of `Q` under the
Frobenius map and to the negative of its second image. -/
def millerValue (x y : Fq2) (xP yP : Fq) : Fq12 :=
  let s := millerLoop x y xP yP
  let (x₁, y₁) := frobeniusPoint x y
  let (x₂, y₂) := frobeniusPoint x₁ y₁
  ((s.step x₁ y₁ xP yP).step x₂ (-y₂) xP yP).value

/-- The part of the final power that is left after `p ^ 6 - 1` and `p ^ 2 + 1`. -/
def hardExponent : Nat :=
  (Nat.pow Fq.order 4 - Nat.pow Fq.order 2 + 1) / Scalar.order * (2 * z * (6 * (z * z) + 3 * z + 1))

/-- The final power: first `p ^ 6 - 1` by conjugation, then `p ^ 2 + 1` by the Frobenius map, then
the rest. -/
def finalPower (f : Fq12) : Fq12 :=
  let g := f.conj * f⁻¹
  power (g.frobeniusSquare * g) hardExponent

def pair (P : G1) (Q : G2) : Gt :=
  match P.point, Q.point with
  | .affine xP yP, .affine x y => ⟨finalPower (millerValue x y xP yP)⟩
  | _, _ => 0

end PlonkKzg.Ate

namespace PlonkKzg.Gt

def generator : Gt := Ate.pair G1.generator G2.generator

def random : Draw Gt := do
  let P ← G1.random
  let Q ← G2.random
  pure (Ate.pair P Q)

end PlonkKzg.Gt
