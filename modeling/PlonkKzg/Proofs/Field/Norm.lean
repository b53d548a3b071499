import PlonkKzg.Proofs.Field.Frobenius

/-!
# The extension of degree twelve is a field

Inverses divide by a norm, so it is enough that only zero has the norm zero. That holds in the first
step of the tower because `9 + u` is no cube, and in the second because it is no square.

* `Fq2.xi_ne_pow`, `Fq2.eq_zero_of_cube_eq` — the constant is no power, and no ratio of cubes;
* `Fq6.norm`, `Fq6.norm_mul`, `Fq6.norm_eq_zero_iff` — the norm of a triple;
* `Fq6.field`, `Fq12.field` — the two fields;
* `Fq12.pow_order_twelve` — every element is its own power to `p ^ 12`.
-/

namespace PlonkKzg

/-! ### The constant of the tower -/

namespace Fq12

theorem frobeniusRoot_sq_ne_one : frobeniusRoot ^ 2 ≠ 1 := by
  rw [← power_eq_pow]
  decide +kernel

theorem frobeniusRoot_cube_ne_one : frobeniusRoot ^ 3 ≠ 1 := by
  rw [frobeniusRoot_pow_three]
  decide

end Fq12

namespace Fq2

theorem xi_ne_zero : xi ≠ 0 := by decide

/-- If it were a power, a power of the sixth root of unity would be one. -/
theorem xi_ne_pow {k m : Nat} (hkm : k * m = 6) (h : Fq12.frobeniusRoot ^ m ≠ 1) (a : Fq2) :
    a ^ k ≠ xi := by
  intro ha
  have hk : k ≠ 0 := by
    rintro rfl
    omega
  have hzero : a ≠ 0 := by
    rintro rfl
    rw [zero_pow hk] at ha
    exact xi_ne_zero ha.symm
  have hexp : k * ((Fq.order ^ 2 - 1) / 6 * m) = Fq.order ^ 2 - 1 := by
    rw [Nat.mul_left_comm, hkm]
    decide
  apply h
  rw [Fq12.frobeniusRoot_eq_pow, ← ha, ← pow_mul, ← pow_mul, hexp, ← card_eq]
  exact FiniteField.pow_card_sub_one_eq_one a hzero

/-- Otherwise the ratio would be a cube root of the constant. -/
theorem eq_zero_of_cube_eq {a b : Fq2} (h : a ^ 3 = xi * b ^ 3) : a = 0 ∧ b = 0 := by
  have hb : b = 0 := by
    by_contra hb
    refine xi_ne_pow (k := 3) (m := 2) rfl Fq12.frobeniusRoot_sq_ne_one (a / b) ?_
    rw [div_pow, h, mul_div_cancel_right₀ xi (pow_ne_zero 3 hb)]
  rw [hb, zero_pow (by decide), mul_zero] at h
  exact ⟨pow_eq_zero_iff (by decide) |>.1 h, hb⟩

end Fq2

/-! ### The first step -/

namespace Fq6

/-- The product with the two other conjugates, which lies in `Fq2`. -/
def norm (a : Fq6) : Fq2 :=
  a.c0 ^ 3 + Fq2.xi * a.c1 ^ 3 + Fq2.xi ^ 2 * a.c2 ^ 3 - 3 * Fq2.xi * (a.c0 * a.c1 * a.c2)

theorem norm_v : norm v = Fq2.xi := by
  simp [norm, v]

/-- The norm is multiplicative. -/
theorem norm_mul (a b : Fq6) : norm (a * b) = norm a * norm b := by
  simp only [norm, c0_mul, c1_mul, c2_mul]
  ring

theorem norm_eq_zero_iff (a : Fq6) : norm a = 0 ↔ a = 0 := by
  constructor
  · intro h
    rw [norm] at h
    -- the remainder of `v³ - (9 + u)` by the element is linear, and its root would be a cube root
    have hremainder : (Fq2.xi * a.c2 ^ 2 - a.c0 * a.c1) ^ 3 =
        Fq2.xi * (a.c1 ^ 2 - a.c0 * a.c2) ^ 3 := by
      linear_combination (Fq2.xi * a.c2 ^ 3 - a.c1 ^ 3) * h
    obtain ⟨h1, h2⟩ := Fq2.eq_zero_of_cube_eq hremainder
    have hcubes : a.c1 ^ 3 = Fq2.xi * a.c2 ^ 3 := by
      linear_combination a.c1 * h2 - a.c2 * h1
    obtain ⟨hc1, hc2⟩ := Fq2.eq_zero_of_cube_eq hcubes
    rw [hc1, hc2] at h
    exact Fq6.ext (pow_eq_zero_iff (n := 3) (by decide) |>.1 (by linear_combination h)) hc1 hc2
  · rintro rfl
    simp [norm]

/-- The adjugate over the norm. -/
theorem inv_eq (a : Fq6) : a⁻¹ = scale (norm a)⁻¹
    ⟨a.c0 * a.c0 - Fq2.xi * (a.c1 * a.c2), Fq2.xi * (a.c2 * a.c2) - a.c0 * a.c1,
      a.c1 * a.c1 - a.c0 * a.c2⟩ := by
  have hnorm : norm a = a.c0 * (a.c0 * a.c0 - Fq2.xi * (a.c1 * a.c2)) +
      Fq2.xi * (a.c2 * (Fq2.xi * (a.c2 * a.c2) - a.c0 * a.c1) +
        a.c1 * (a.c1 * a.c1 - a.c0 * a.c2)) := by
    rw [norm]
    ring
  rw [hnorm]
  rfl

/-- The inverse over the cubic extension, from the norm. -/
theorem mul_inv {a : Fq6} (ha : a ≠ 0) : a * a⁻¹ = 1 := by
  have hnorm := mul_inv_cancel₀ (mt (norm_eq_zero_iff a).1 ha)
  rw [inv_eq]
  generalize (norm a)⁻¹ = n at hnorm
  rw [norm] at hnorm
  ext1
  · rw [c0_mul, c0_one, scale]
    linear_combination hnorm
  · rw [c1_mul, c1_one, scale]
    ring
  · rw [c2_mul, c2_one, scale]
    ring

instance field : Field Fq6 where
  exists_pair_ne := ⟨1, 0, fun h => one_ne_zero (congrArg c0 h)⟩
  mul_inv_cancel _ ha := mul_inv ha
  inv_zero := by rw [inv_eq]; ext1 <;> simp [scale]
  nnqsmul := _
  nnqsmul_def _ _ := rfl
  qsmul := _
  qsmul_def _ _ := rfl

/-- The norm of a root would be a root of the constant. -/
theorem sq_ne_v (a : Fq6) : a ^ 2 ≠ v := by
  intro ha
  refine Fq2.xi_ne_pow (k := 2) (m := 3) rfl Fq12.frobeniusRoot_cube_ne_one (norm a) ?_
  rw [pow_two, ← norm_mul, ← pow_two, ha, norm_v]

end Fq6

/-! ### The second step -/

namespace Fq12

/-- The product with the conjugate, which lies in `Fq6`. -/
def norm (a : Fq12) : Fq6 := a.c0 * a.c0 - Fq6.v * (a.c1 * a.c1)

theorem norm_eq_zero_iff (a : Fq12) : norm a = 0 ↔ a = 0 := by
  constructor
  · intro h
    rw [norm, sub_eq_zero] at h
    have hc1 : a.c1 = 0 := by
      by_contra hc1
      refine Fq6.sq_ne_v (a.c0 / a.c1) ?_
      rw [div_pow, pow_two, pow_two, h, mul_div_cancel_right₀ Fq6.v (mul_ne_zero hc1 hc1)]
    rw [hc1, mul_zero, mul_zero, mul_self_eq_zero] at h
    exact Fq12.ext h hc1
  · rintro rfl
    simp [norm]

theorem inv_eq (a : Fq12) : a⁻¹ = ⟨(norm a)⁻¹ * a.c0, -((norm a)⁻¹ * a.c1)⟩ := by
  rw [norm, ← Fq6.mulV_eq]
  rfl

/-- The inverse over the quadratic extension at the top, from the norm. -/
theorem mul_inv {a : Fq12} (ha : a ≠ 0) : a * a⁻¹ = 1 := by
  have hnorm := mul_inv_cancel₀ (mt (norm_eq_zero_iff a).1 ha)
  rw [inv_eq]
  generalize (norm a)⁻¹ = n at hnorm
  rw [norm] at hnorm
  ext1
  · rw [c0_mul, c0_one]
    linear_combination hnorm
  · rw [c1_mul, c1_one]
    ring

instance field : Field Fq12 where
  exists_pair_ne := ⟨1, 0, fun h => one_ne_zero (congrArg c0 h)⟩
  mul_inv_cancel _ ha := mul_inv ha
  inv_zero := by rw [inv_eq]; ext1 <;> simp
  nnqsmul := _
  nnqsmul_def _ _ := rfl
  qsmul := _
  qsmul_def _ _ := rfl

theorem conj_conj (a : Fq12) : a.conj.conj = a := by
  ext1
  · rfl
  · exact neg_neg a.c1

/-- Frobenius has order twelve. -/
theorem pow_order_twelve (a : Fq12) : a ^ Fq.order ^ 12 = a := by
  have hexp : Fq.order ^ 12 = Fq.order ^ 6 * Fq.order ^ 6 := by rw [← pow_add]
  rw [hexp, pow_mul, ← conj_eq_pow, ← conj_eq_pow, conj_conj]

end Fq12

end PlonkKzg
