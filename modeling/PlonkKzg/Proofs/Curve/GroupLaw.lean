import Mathlib.AlgebraicGeometry.EllipticCurve.Affine.Point
import PlonkKzg.Curve.Multiple

/-!
# The group of a curve

The points of `y² = x³ + b` are a group by chords and tangents if the curve has no singular point.
The law on coordinates is that of a Weierstrass curve, and the multiplication that doubles in
coordinates with a common denominator computes the multiples of this group.

* `SmoothCurve` — `6 b` is not zero;
* `curve`, `coordinates` — the Weierstrass curve, and its points in coordinates;
* `coordinates_add`, `coordinates_neg` — the law of both is the same;
* `CurvePoint.addCommGroup` — so the points of the curve are a commutative group;
* `Jacobian.toPoint_double`, `Jacobian.toPoint_addAffine` — one step of the multiplication;
* `CurvePoint.point_nsmul`, `CurvePoint.times_eq_nsmul` — and all of it.
-/

namespace PlonkKzg

variable {K : Type} [Field K]

/-- The constant of a curve without singular points, over a field where the formulas for tangents
make sense. -/
class SmoothCurve (b : K) : Prop where
  six_mul_ne_zero : (6 : K) * b ≠ 0

def curve (b : K) : WeierstrassCurve.Affine K := ⟨0, 0, 0, 0, b⟩

section

variable {b : K}

theorem SmoothCurve.two_ne_zero (h : SmoothCurve b) : (2 : K) ≠ 0 := by
  intro htwo
  apply h.six_mul_ne_zero
  linear_combination 3 * b * htwo

/-- The library's curve equation is the one tested here. -/
theorem curve_equation_iff {x y : K} :
    (curve b).Equation x y ↔ (Point.affine x y).OnCurve b := by
  rw [WeierstrassCurve.Affine.equation_iff, Point.OnCurve, Point.cubic, curve]
  constructor <;> intro h <;> linear_combination h

/-- A smooth curve has no singular points. -/
theorem curve_nonsingular_iff [h : SmoothCurve b] {x y : K} :
    (curve b).Nonsingular x y ↔ (Point.affine x y).OnCurve b := by
  rw [← curve_equation_iff, WeierstrassCurve.Affine.equation_iff_nonsingular_of_Δ_ne_zero]
  have hdiscriminant : (curve b).Δ = -(2 * ((6 * b) * (6 * b) * 6)) := by
    simp only [WeierstrassCurve.Δ, WeierstrassCurve.b₂, WeierstrassCurve.b₄, WeierstrassCurve.b₆,
      WeierstrassCurve.b₈, curve]
    ring
  have hsix := h.six_mul_ne_zero
  rw [hdiscriminant]
  exact neg_ne_zero.2 (mul_ne_zero h.two_ne_zero
    (mul_ne_zero (mul_ne_zero hsix hsix) (left_ne_zero_of_mul hsix)))

def coordinates : (curve b).Point → Point K
  | .zero => .infinity
  | .some x y _ => .affine x y

/-- A point of the library's group is determined by its coordinates. -/
theorem coordinates_injective : Function.Injective (coordinates (b := b)) := by
  intro P Q h
  cases P with
  | zero =>
      cases Q with
      | zero => rfl
      | some x y hQ => cases h
  | some x y hP =>
      cases Q with
      | zero => cases h
      | some x' y' hQ =>
          obtain ⟨rfl, rfl⟩ := Point.affine.inj h
          rfl

theorem curve_negY (x y : K) : (curve b).negY x y = -y := by
  simp [WeierstrassCurve.Affine.negY, curve]

theorem coordinates_neg (P : (curve b).Point) : coordinates (-P) = (coordinates P).neg := by
  cases P with
  | zero => rfl
  | some x y h =>
      rw [WeierstrassCurve.Affine.Point.neg_some, coordinates, coordinates, Point.neg, curve_negY]

theorem onCurve_coordinates (P : (curve b).Point) : (coordinates P).OnCurve b := by
  cases P with
  | zero => trivial
  | some x y h => exact curve_equation_iff.1 h.1

/-- The chord construction agrees with the library's formulas for a given slope. -/
theorem chord_eq_affine (slope x₁ y₁ x₂ : K) : Point.chord slope x₁ y₁ x₂ =
    .affine ((curve b).addX x₁ x₂ slope) ((curve b).addY x₁ x₂ y₁ slope) := by
  rw [Point.chord, Point.affine.injEq]
  simp only [WeierstrassCurve.Affine.addX, WeierstrassCurve.Affine.addY,
    WeierstrassCurve.Affine.negY, WeierstrassCurve.Affine.negAddY, curve]
  exact ⟨by ring, by ring⟩

variable [DecidableEq K]

theorem Point.add_self (p : Point K) : p.add p = p.double := by
  cases p with
  | infinity => rfl
  | affine x y => rw [Point.add, if_pos rfl, if_pos rfl]

/-! ### The sum of two points -/

section

variable {x x₁ x₂ y y₁ y₂ : K}

/-- The line through two points with different first coordinates. -/
theorem coordinates_add_of_ne (h₁ : (curve b).Nonsingular x₁ y₁) (h₂ : (curve b).Nonsingular x₂ y₂)
    (hx : x₁ ≠ x₂) : coordinates (.some x₁ y₁ h₁ + .some x₂ y₂ h₂) =
      (Point.affine x₁ y₁).add (.affine x₂ y₂) := by
  have hslope : (curve b).slope x₁ x₂ y₁ y₂ = (y₂ - y₁) * (x₂ - x₁)⁻¹ := by
    rw [WeierstrassCurve.Affine.slope_of_X_ne hx, ← neg_sub y₂, ← neg_sub x₂, neg_div_neg_eq,
      div_eq_mul_inv]
  rw [WeierstrassCurve.Affine.Point.add_of_X_ne hx, coordinates, Point.add, if_neg hx, ← hslope,
    chord_eq_affine (b := b)]

/-- The vertical line. Its two points are the same only where the tangent is vertical. -/
theorem coordinates_add_neg [h : SmoothCurve b] (h₁ : (curve b).Nonsingular x y₁)
    (h₂ : (curve b).Nonsingular x y₂) (hy : y₁ = -y₂) :
    coordinates (.some x y₁ h₁ + .some x y₂ h₂) = (Point.affine x y₁).add (.affine x y₂) := by
  rw [WeierstrassCurve.Affine.Point.add_of_Y_eq rfl (by rw [curve_negY, hy]), Point.add, if_pos rfl]
  show Point.infinity = _
  by_cases hsame : y₁ = y₂
  · have hdouble : 2 * y₁ = 0 := by linear_combination hy + hsame
    have hzero := (mul_eq_zero.1 hdouble).resolve_left h.two_ne_zero
    rw [if_pos hsame, Point.double, if_pos hzero]
  · rw [if_neg hsame]

/-- The tangent of a point, where it is not vertical. -/
theorem coordinates_add_self (h₁ h₂ : (curve b).Nonsingular x y) (hy : y ≠ -y) :
    coordinates (.some x y h₁ + .some x y h₂) = (Point.affine x y).add (.affine x y) := by
  have hne : y ≠ 0 := by
    rintro rfl
    exact hy neg_zero.symm
  have hslope : (curve b).slope x x y y = (x * x + x * x + x * x) * (y + y)⁻¹ := by
    rw [WeierstrassCurve.Affine.slope_of_Y_ne rfl (by rwa [curve_negY]), curve_negY,
      sub_neg_eq_add, div_eq_mul_inv]
    simp only [curve]
    ring
  rw [WeierstrassCurve.Affine.Point.add_of_Y_ne (by rwa [curve_negY]), coordinates, Point.add_self,
    Point.double, if_neg hne, ← hslope, chord_eq_affine (b := b)]

end

/-- Addition by cases on the coordinates is the library's group law. -/
theorem coordinates_add [SmoothCurve b] (P Q : (curve b).Point) :
    coordinates (P + Q) = (coordinates P).add (coordinates Q) := by
  cases P with
  | zero =>
      show coordinates (0 + Q) = _
      rw [zero_add]
      rfl
  | some x₁ y₁ h₁ =>
      cases Q with
      | zero =>
          show coordinates (_ + 0) = _
          rw [add_zero]
          rfl
      | some x₂ y₂ h₂ =>
          by_cases hx : x₁ = x₂
          · -- Two points of the curve on a vertical line are equal or opposite.
            subst hx
            by_cases hy : y₁ = -y₂
            · exact coordinates_add_neg h₁ h₂ hy
            · have hcurve₁ := curve_equation_iff.1 h₁.1
              have hcurve₂ := curve_equation_iff.1 h₂.1
              rw [Point.OnCurve] at hcurve₁ hcurve₂
              have hsquares := mul_self_eq_mul_self_iff.1 (hcurve₁.trans hcurve₂.symm)
              obtain rfl := hsquares.resolve_right hy
              exact coordinates_add_self h₁ h₂ hy
          · exact coordinates_add_of_ne h₁ h₂ hx

end

/-! ### Points of the curve -/

namespace CurvePoint

variable {b : K} [SmoothCurve b]

/-- A point of the curve as a point of the Weierstrass curve. -/
def toGroup : CurvePoint b → (curve b).Point
  | ⟨.infinity, _⟩ => 0
  | ⟨.affine x y, h⟩ => .some x y (curve_nonsingular_iff.2 h)

theorem coordinates_toGroup (P : CurvePoint b) : coordinates P.toGroup = P.point := by
  obtain ⟨point, h⟩ := P
  cases point <;> rfl

theorem toGroup_zero : (0 : CurvePoint b).toGroup = 0 := rfl

/-- The translation into the library's group is injective, so laws can be carried back along it. -/
theorem toGroup_injective : Function.Injective (toGroup : CurvePoint b → (curve b).Point) := by
  intro P Q h
  rw [CurvePoint.ext_iff, ← coordinates_toGroup, h, coordinates_toGroup]

variable [DecidableEq K]

/-- What has the coordinates of a point of the curve is that point. -/
theorem toGroup_ofPoint {p : Point K} {Q : (curve b).Point} (h : coordinates Q = p) :
    (ofPoint b p).toGroup = Q := by
  apply coordinates_injective
  have hcurve : p.OnCurve b := h ▸ onCurve_coordinates Q
  rw [coordinates_toGroup, h]
  exact congrArg CurvePoint.point (ofPoint_point ⟨p, hcurve⟩)

/-- The translation is additive. -/
theorem toGroup_add (P Q : CurvePoint b) : (P + Q).toGroup = P.toGroup + Q.toGroup := by
  apply toGroup_ofPoint
  rw [coordinates_add, coordinates_toGroup, coordinates_toGroup]

/-- The sum of two points of the curve is on the curve. -/
theorem point_add (P Q : CurvePoint b) : (P + Q).point = P.point.add Q.point := by
  rw [← coordinates_toGroup, toGroup_add, coordinates_add, coordinates_toGroup,
    coordinates_toGroup]

theorem toGroup_neg (P : CurvePoint b) : (-P).toGroup = -P.toGroup := by
  apply toGroup_ofPoint
  rw [coordinates_neg, coordinates_toGroup]

instance addCommGroup : AddCommGroup (CurvePoint b) where
  add_assoc P Q R := toGroup_injective (by simp only [toGroup_add, add_assoc])
  zero_add P := toGroup_injective (by simp only [toGroup_add, toGroup_zero, zero_add])
  add_zero P := toGroup_injective (by simp only [toGroup_add, toGroup_zero, add_zero])
  neg_add_cancel P := toGroup_injective (by
    simp only [toGroup_add, toGroup_neg, toGroup_zero, neg_add_cancel])
  add_comm P Q := toGroup_injective (by simp only [toGroup_add, add_comm])
  sub_eq_add_neg _ _ := rfl
  nsmul := nsmulRec
  zsmul := zsmulRec

/-- The passage to the Weierstrass curve as a homomorphism. -/
def toGroupHom : CurvePoint b →+ (curve b).Point where
  toFun := toGroup
  map_zero' := toGroup_zero
  map_add' := toGroup_add

theorem toGroup_nsmul (n : Nat) (P : CurvePoint b) : (n • P).toGroup = n • P.toGroup :=
  map_nsmul toGroupHom n P

end CurvePoint

/-! ### Multiples -/

namespace Jacobian

/-- A difference of coordinates that was taken times the denominators. -/
theorem sub_mul_inv_sq {Z : K} (hZ : Z ≠ 0) (x h : K) :
    (x * (Z * Z) - h) * (Z⁻¹ * Z⁻¹) = x - h * (Z⁻¹ * Z⁻¹) := by
  field_simp

theorem sub_mul_inv_cube {Z : K} (hZ : Z ≠ 0) (y r : K) :
    (y * (Z * Z * Z) - r) * (Z⁻¹ * Z⁻¹ * Z⁻¹) = y - r * (Z⁻¹ * Z⁻¹ * Z⁻¹) := by
  field_simp

variable [DecidableEq K]

theorem toPoint_of_ne {J : Jacobian K} (h : J.Z ≠ 0) :
    J.toPoint = .affine (J.X * (J.Z⁻¹ * J.Z⁻¹)) (J.Y * (J.Z⁻¹ * J.Z⁻¹ * J.Z⁻¹)) := by
  rw [toPoint, if_neg h]

/-- Doubling in projective coordinates doubles the point they stand for. -/
theorem toPoint_double (htwo : (2 : K) ≠ 0) (J : Jacobian K) :
    J.double.toPoint = J.toPoint.double := by
  obtain ⟨X, Y, Z⟩ := J
  by_cases hZ : Z = 0
  · have hZ' : (double ⟨X, Y, Z⟩).Z = 0 := by simp only [double, hZ, mul_zero, add_zero]
    rw [toPoint, if_pos hZ', toPoint, if_pos hZ, Point.double]
  · have hinv : Z⁻¹ ≠ 0 := inv_ne_zero hZ
    rw [toPoint_of_ne (J := ⟨X, Y, Z⟩) hZ, Point.double]
    by_cases hY : Y = 0
    · -- The tangent is vertical, and the new denominator is zero.
      have hZ' : (double ⟨X, Y, Z⟩).Z = 0 := by simp only [double, hY, zero_mul, add_zero]
      rw [toPoint, if_pos hZ', hY, zero_mul, if_pos rfl]
    · have hZ' : (double ⟨X, Y, Z⟩).Z ≠ 0 := by
        simp only [double, ← two_mul]
        exact mul_ne_zero htwo (mul_ne_zero hY hZ)
      have hY' : Y * (Z⁻¹ * Z⁻¹ * Z⁻¹) ≠ 0 :=
        mul_ne_zero hY (mul_ne_zero (mul_ne_zero hinv hinv) hinv)
      rw [toPoint_of_ne hZ', if_neg hY', Point.chord, Point.affine.injEq]
      simp only [double, ← two_mul]
      constructor
      · field_simp
        ring
      · field_simp
        ring

/-- Where `h` is the difference of the first coordinates and `r` that of the second ones, both times
the denominators. -/
theorem toPoint_chord {Z h : K} (hZ : Z ≠ 0) (hh : h ≠ 0) (x y r : K) :
    (⟨r * r - h * (h * h) - ((x * (Z * Z) - h) * (h * h) + (x * (Z * Z) - h) * (h * h)),
      r * ((x * (Z * Z) - h) * (h * h) - (r * r - h * (h * h) -
        ((x * (Z * Z) - h) * (h * h) + (x * (Z * Z) - h) * (h * h)))) -
        (y * (Z * Z * Z) - r) * (h * (h * h)), Z * h⟩ : Jacobian K).toPoint =
      Point.chord (r * (Z * h)⁻¹) ((x * (Z * Z) - h) * (Z⁻¹ * Z⁻¹))
        ((y * (Z * Z * Z) - r) * (Z⁻¹ * Z⁻¹ * Z⁻¹)) x := by
  rw [toPoint_of_ne (mul_ne_zero hZ hh), Point.chord, Point.affine.injEq]
  constructor
  · field_simp
    ring
  · field_simp
    ring

/-- Mixed addition in projective coordinates adds the points. -/
theorem toPoint_addAffine (htwo : (2 : K) ≠ 0) (J : Jacobian K) (x y : K) :
    (J.addAffine x y).toPoint = J.toPoint.add (.affine x y) := by
  obtain ⟨X, Y, Z⟩ := J
  by_cases hZ : Z = 0
  · have hone : (addAffine ⟨X, Y, Z⟩ x y) = ⟨x, y, 1⟩ := if_pos hZ
    rw [hone, toPoint_of_ne one_ne_zero, toPoint, if_pos hZ, Point.add]
    simp only [inv_one, mul_one]
  · -- The coordinates of the other point, with the differences that the formulas are made of.
    obtain ⟨h, hX⟩ : ∃ h, X = x * (Z * Z) - h := ⟨x * (Z * Z) - X, (sub_sub_cancel _ _).symm⟩
    obtain ⟨r, hY⟩ : ∃ r, Y = y * (Z * Z * Z) - r := ⟨y * (Z * Z * Z) - Y, (sub_sub_cancel _ _).symm⟩
    subst hX hY
    have hx : (x * (Z * Z) - h) * (Z⁻¹ * Z⁻¹) = x ↔ h = 0 := by
      rw [sub_mul_inv_sq hZ, sub_eq_self]
      simp [hZ]
    have hy : (y * (Z * Z * Z) - r) * (Z⁻¹ * Z⁻¹ * Z⁻¹) = y ↔ r = 0 := by
      rw [sub_mul_inv_cube hZ, sub_eq_self]
      simp [hZ]
    simp only [addAffine, if_neg hZ, sub_sub_cancel]
    rw [toPoint_of_ne (J := ⟨x * (Z * Z) - h, y * (Z * Z * Z) - r, Z⟩) hZ, Point.add]
    by_cases hh : h = 0
    · -- The points are equal or opposite, as the second coordinates say.
      rw [if_pos hh, if_pos (hx.2 hh)]
      by_cases hr : r = 0
      · rw [if_pos hr, if_pos (hy.2 hr), toPoint_double htwo, toPoint_of_ne hZ]
      · rw [if_neg hr, if_neg (mt hy.1 hr)]
        exact if_pos rfl
    · have hslope : (y - (y * (Z * Z * Z) - r) * (Z⁻¹ * Z⁻¹ * Z⁻¹)) *
          (x - (x * (Z * Z) - h) * (Z⁻¹ * Z⁻¹))⁻¹ = r * (Z * h)⁻¹ := by
        rw [sub_mul_inv_sq hZ, sub_mul_inv_cube hZ, sub_sub_cancel, sub_sub_cancel]
        field_simp
      rw [if_neg hh, if_neg (mt hx.1 hh), hslope]
      exact toPoint_chord hZ hh x y r

variable {b : K} [SmoothCurve b]

/-- The double-and-add loop, bit by bit: after `k` bits it stands at `n % 2 ^ k` times the point. -/
theorem toPoint_timesBits {x y : K} {P : (curve b).Point} (hP : coordinates P = .affine x y)
    (k n : Nat) : (timesBits x y k n).toPoint = coordinates ((n % 2 ^ k) • P) := by
  have htwo := SmoothCurve.two_ne_zero (b := b) inferInstance
  induction k generalizing n with
  | zero =>
      rw [pow_zero, Nat.mod_one, zero_nsmul]
      exact if_pos rfl
  | succ k ih =>
      have hsplit : n % 2 ^ (k + 1) = n % 2 + 2 * (n / 2 % 2 ^ k) := by
        rw [pow_succ, Nat.mul_comm (2 ^ k) 2, Nat.mod_mul]
      have hdouble : (timesBits x y k (n / 2)).double.toPoint =
          coordinates ((2 * (n / 2 % 2 ^ k)) • P) := by
        rw [toPoint_double htwo, ih, ← Point.add_self, ← coordinates_add, ← two_nsmul,
          ← mul_nsmul']
      rw [timesBits, hsplit]
      rcases Nat.mod_two_eq_zero_or_one n with hbit | hbit
      · rw [hbit, if_neg (by omega), Nat.zero_add, hdouble]
      · rw [hbit, if_pos rfl, toPoint_addAffine htwo, hdouble, ← hP, ← coordinates_add, add_comm 1,
          succ_nsmul]

end Jacobian

namespace CurvePoint

variable [DecidableEq K] {b : K} [SmoothCurve b]

/-- The multiplication by doubling computes the multiples of the group. -/
theorem point_nsmul (n : Nat) (P : CurvePoint b) : (n • P).point = P.point.times n := by
  rw [← coordinates_toGroup, toGroup_nsmul]
  cases hP : P.point with
  | infinity =>
      have hzero : P = 0 := CurvePoint.ext hP
      rw [hzero, toGroup_zero, nsmul_zero]
      rfl
  | affine x y =>
      have hlt : n < 2 ^ (n.log2 + 1) := Nat.lt_log2_self
      rw [Point.times, Jacobian.toPoint_timesBits ((coordinates_toGroup P).trans hP),
        Nat.mod_eq_of_lt hlt]

/-- The scalar multiplication of the program is the multiple in the group. -/
theorem times_eq_nsmul (n : Nat) (P : CurvePoint b) : P.times n = n • P := by
  rw [times, ← point_nsmul, ofPoint_point]

end CurvePoint

end PlonkKzg
