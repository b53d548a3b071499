import PlonkKzg.Proofs.Field.Primality

/-!
# Inversion of lists

One inversion gives the inverses of all elements.

* `Scalar.inv_mul_parts` — the inverse of a product, times one factor;
* `Scalar.invertFrom_eq` — the pass down and up gives the inverse of what was accumulated, and all
  inverses;
* `Scalar.invertAll_eq_ok`, `Scalar.invertAll_eq_error` — the inverses, or an error for a zero.
-/

namespace PlonkKzg

namespace Scalar

theorem inv_mul_parts {a b : Scalar} (ha : a ≠ 0) (hb : b ≠ 0) :
    (a * b)⁻¹ * b = a⁻¹ ∧ (a * b)⁻¹ * a = b⁻¹ := by
  constructor
  · rw [mul_inv, mul_assoc, inv_mul_cancel₀ hb, mul_one]
  · rw [mul_comm a b, mul_inv, mul_assoc, inv_mul_cancel₀ ha, mul_one]

/-- From the inverse of the product, the accumulator's inverse and all others are recovered. -/
theorem invertFrom_eq {acc : Scalar} {xs : List Scalar} (hacc : acc ≠ 0) (hxs : 0 ∉ xs) :
    invertFrom acc xs = (acc⁻¹, xs.map (·⁻¹)) := by
  induction xs generalizing acc with
  | nil => rfl
  | cons x xs ih =>
      have hx : x ≠ 0 := fun h => hxs (h ▸ List.mem_cons_self)
      have hrest : 0 ∉ xs := fun h => hxs (List.mem_cons_of_mem x h)
      obtain ⟨hback, hhere⟩ := inv_mul_parts hacc hx
      rw [invertFrom, ih (mul_ne_zero hacc hx) hrest, List.map_cons, hback, hhere]

/-- Inverting by one inversion of the product inverts every entry. -/
theorem invertAll_eq_ok {xs : List Scalar} (h : 0 ∉ xs) : invertAll xs = .ok (xs.map (·⁻¹)) := by
  rw [invertAll, if_neg h, invertFrom_eq one_ne_zero h]

/-- A zero anywhere makes the product zero. -/
theorem invertAll_eq_error {xs : List Scalar} (h : 0 ∈ xs) :
    invertAll xs = .error .notInvertible := if_pos h

end Scalar

end PlonkKzg
