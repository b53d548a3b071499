import PlonkKzg.Field.Residue

/-!
# Points of a curve

The points of the curve `y² = x³ + b` over a field, with the chord and tangent law.

* `Point K` — a pair of coordinates, or the point at infinity;
* `Point.OnCurve b P` — `P` satisfies the equation, which the point at infinity always does;
* `Point.add`, `Point.neg` — the group law on coordinates;
* `CurvePoint b` — a point together with the fact that it is on the curve;
* `CurvePoint.ofPoint` — a point of the curve as a `CurvePoint`, and any other as infinity.

The law maps points of the curve to points of the curve, so the second case of `ofPoint` is not
taken by the operations; they go through it to keep the invariant in the type.
-/

namespace PlonkKzg

/-- A pair of coordinates or the point at infinity. -/
inductive Point (K : Type) where
  | infinity
  | affine (x y : K)
deriving DecidableEq

namespace Point

variable {K : Type} [Zero K] [One K] [Add K] [Sub K] [Neg K] [Mul K] [Inv K] [DecidableEq K]

/-- The value of `x³ + b`. -/
def cubic (b x : K) : K := x * x * x + b

def OnCurve (b : K) : Point K → Prop
  | infinity => True
  | affine x y => y * y = cubic b x

instance (b : K) (P : Point K) : Decidable (OnCurve b P) := by
  cases P <;> unfold OnCurve <;> infer_instance

def neg : Point K → Point K
  | infinity => infinity
  | affine x y => affine x (-y)

/-- The opposite of the third point on the line with a given slope through `(x₁, y₁)` and a point
with first coordinate `x₂`. -/
def chord (slope x₁ y₁ x₂ : K) : Point K :=
  let x₃ := slope * slope - x₁ - x₂
  affine x₃ (slope * (x₁ - x₃) - y₁)

def double : Point K → Point K
  | infinity => infinity
  | affine x y =>
      if y = 0 then infinity
      else chord ((x * x + x * x + x * x) * (y + y)⁻¹) x y x

/-- The sum of two points, by the line through them. -/
def add : Point K → Point K → Point K
  | infinity, Q => Q
  | P, infinity => P
  | affine x₁ y₁, affine x₂ y₂ =>
      if x₁ = x₂ then
        if y₁ = y₂ then double (affine x₁ y₁) else infinity
      else chord ((y₂ - y₁) * (x₂ - x₁)⁻¹) x₁ y₁ x₂

omit [Sub K] [Neg K] [Mul K] [Inv K] [One K] [Add K] [Zero K] [DecidableEq K] in
theorem eq_infinity_or_affine (P : Point K) : P = infinity ∨ ∃ x y, P = affine x y := by
  cases P with
  | infinity => exact .inl rfl
  | affine x y => exact .inr ⟨x, y, rfl⟩

end Point

/-- A point that satisfies the equation `y² = x³ + b`. -/
@[ext] structure CurvePoint {K : Type} [Add K] [Mul K] (b : K) where
  point : Point K
  onCurve : point.OnCurve b

namespace CurvePoint

variable {K : Type} [Zero K] [One K] [Add K] [Sub K] [Neg K] [Mul K] [Inv K] [DecidableEq K]
variable {b : K}

instance : DecidableEq (CurvePoint b) := fun P Q =>
  if h : P.point = Q.point then isTrue (CurvePoint.ext h) else isFalse fun e => h (e ▸ rfl)

/-- The point at infinity, the neutral element. -/
instance : Zero (CurvePoint b) := ⟨⟨.infinity, trivial⟩⟩

instance : Inhabited (CurvePoint b) := ⟨0⟩

def ofPoint? (b : K) (P : Point K) : Option (CurvePoint b) :=
  if h : P.OnCurve b then some ⟨P, h⟩ else none

/-- A point if it satisfies the equation, and the point at infinity otherwise. -/
def ofPoint (b : K) (P : Point K) : CurvePoint b := (ofPoint? b P).getD 0

instance : Add (CurvePoint b) := ⟨fun P Q => ofPoint b (P.point.add Q.point)⟩

instance : Neg (CurvePoint b) := ⟨fun P => ofPoint b P.point.neg⟩

instance : Sub (CurvePoint b) := ⟨fun P Q => P + -Q⟩

def double (P : CurvePoint b) : CurvePoint b := ofPoint b P.point.double

omit [Zero K] [One K] [Sub K] [Neg K] [Inv K] in
theorem ofPoint_point (P : CurvePoint b) : ofPoint b P.point = P := by
  simp only [ofPoint, ofPoint?, P.onCurve, dif_pos, Option.getD_some]

omit [Zero K] [One K] [Sub K] [Neg K] [Inv K] in
theorem ofPoint?_eq_some_iff {P : Point K} {Q : CurvePoint b} :
    ofPoint? b P = some Q ↔ Q.point = P := by
  unfold ofPoint?
  split
  · simp only [Option.some.injEq, CurvePoint.ext_iff, eq_comm]
  · rename_i h
    simp only [reduceCtorEq, false_iff]
    intro e
    exact h (e ▸ Q.onCurve)

end CurvePoint

end PlonkKzg
