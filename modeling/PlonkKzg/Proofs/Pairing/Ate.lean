import PlonkKzg.Pairing.Ate
import PlonkKzg.Proofs.Curve.Order
import PlonkKzg.Proofs.Field.Norm

/-!
# The order of the values of pairings

The final power raises to a multiple of `(p ^ 12 - 1) / r`, so that the power of the result to the
order `r` of the scalars is one, unless the value before it is zero. That value is a product of
lines, and a line has the second coordinate of the first point as a coefficient, which is not zero on
a curve without points of order two.

* `Ate.finalPower_eq_pow` — the final power as one power;
* `Ate.power_finalPower` — the order of what is not zero after it;
* `Ate.walkBits_value_ne_zero`, `Ate.millerValue_ne_zero` — products of lines;
* `Ate.value_pair_cases`, `Ate.power_pair` — the values, and their order.
-/

namespace PlonkKzg.Ate

/-! ### The final power -/

/-- The first step of the final exponentiation, as a power. -/
theorem conj_mul_inv {f : Fq12} (hf : f ≠ 0) : f.conj * f⁻¹ = f ^ (Fq.order ^ 6 - 1) := by
  have hpos : 0 < Fq.order ^ 6 := Nat.pow_pos (Modulus.pos Fq.order)
  rw [Fq12.conj_eq_pow, ← div_eq_mul_inv, div_eq_iff hf, ← pow_succ, Nat.sub_add_cancel hpos]

/-- The three steps together raise to one exponent. -/
theorem finalPower_eq_pow {f : Fq12} (hf : f ≠ 0) :
    finalPower f = f ^ ((Fq.order ^ 6 - 1) * (Fq.order ^ 2 + 1) * hardExponent) := by
  rw [finalPower, conj_mul_inv hf, Fq12.frobeniusSquare_eq_pow, power_eq_pow, ← pow_succ,
    ← pow_mul, ← pow_mul, ← Nat.mul_assoc]

/-- The order of the scalars completes the exponents to a multiple of `p ^ 12 - 1`. -/
theorem dvd_exponent : Fq.order ^ 12 - 1 ∣
    (Fq.order ^ 6 - 1) * (Fq.order ^ 2 + 1) * hardExponent * Scalar.order := by
  decide

/-- Exponents divisible by the group order give one. -/
theorem pow_eq_one_of_dvd {f : Fq12} (hf : f ≠ 0) {n : Nat} (h : Fq.order ^ 12 - 1 ∣ n) :
    f ^ n = 1 := by
  obtain ⟨k, rfl⟩ := h
  have hpos : 0 < Fq.order ^ 12 := Nat.pow_pos (Modulus.pos Fq.order)
  have hpow : f ^ (Fq.order ^ 12 - 1) = 1 := by
    apply mul_right_cancel₀ hf
    rw [← pow_succ, Nat.sub_add_cancel hpos, Fq12.pow_order_twelve, one_mul]
  rw [pow_mul, hpow, one_pow]

/-- What comes out of the final exponentiation has the subgroup's order. -/
theorem power_finalPower {f : Fq12} (hf : f ≠ 0) : power (finalPower f) Scalar.order = 1 := by
  rw [power_eq_pow, finalPower_eq_pow hf, ← pow_mul]
  exact pow_eq_one_of_dvd hf dvd_exponent

/-! ### Products of lines -/

section

variable (x y : Fq2) (xP : Fq) {yP : Fq} (hy : yP ≠ 0)

include hy

/-- A line value is never zero, so the loop stays among the units. -/
theorem line_ne_zero (m : Fq2) : line m x y xP yP ≠ 0 := by
  intro h
  apply hy
  have hcoef : (line m x y xP yP).c0.c0.c0 = (0 : Fq12).c0.c0.c0 := by rw [h]
  exact hcoef

theorem step_value_ne_zero {s : Walk} (hs : s.value ≠ 0) : (s.step x y xP yP).value ≠ 0 := by
  rw [Walk.step]
  exact mul_ne_zero hs (line_ne_zero _ _ xP hy _)

theorem double_value_ne_zero {s : Walk} (hs : s.value ≠ 0) : (s.double xP yP).value ≠ 0 := by
  rw [Walk.double]
  exact step_value_ne_zero _ _ xP hy (mul_ne_zero hs hs)

/-- Each bit squares the value and multiplies one or two lines to it. -/
theorem walkBits_value_ne_zero (k n : Nat) : (walkBits x y xP yP k n).value ≠ 0 := by
  induction k generalizing n with
  | zero => exact one_ne_zero
  | succ k ih =>
      have hdouble := double_value_ne_zero xP hy (ih (n / 2))
      rw [walkBits]
      split
      · exact step_value_ne_zero x y xP hy hdouble
      · exact hdouble

/-- The whole loop stays among the units, by induction over its bits. -/
theorem millerLoop_value_ne_zero : (millerLoop x y xP yP).value ≠ 0 := by
  rw [millerLoop]
  exact walkBits_value_ne_zero x y xP hy _ _

theorem millerValue_ne_zero : millerValue x y xP yP ≠ 0 := by
  rw [millerValue]
  exact step_value_ne_zero _ _ xP hy
    (step_value_ne_zero _ _ xP hy (millerLoop_value_ne_zero x y xP hy))

end

/-! ### The values -/

theorem value_pair_cases (P : G1) (Q : G2) :
    (pair P Q).value = 1 ∨ ∃ f : Fq12, f ≠ 0 ∧ (pair P Q).value = finalPower f := by
  unfold pair
  split
  · rename_i xP yP x y hP hQ
    refine .inr ⟨_, millerValue_ne_zero x y xP (G1.snd_ne_zero hP), ?_⟩
    dsimp only
  · exact .inl rfl

/-- Every value of the pairing has the subgroup's order. -/
theorem power_pair (P : G1) (Q : G2) : power (pair P Q).value Scalar.order = 1 := by
  rcases value_pair_cases P Q with hone | ⟨f, hf, hfinal⟩
  · rw [hone, power_eq_pow, one_pow]
  · rw [hfinal, power_finalPower hf]

end PlonkKzg.Ate
