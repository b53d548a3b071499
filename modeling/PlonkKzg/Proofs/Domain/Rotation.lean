import Mathlib.Data.List.Rotate
import PlonkKzg.Prover.Accumulator
import PlonkKzg.Proofs.Domain.Lagrange

/-!
# Rotated values

Moving all values on a domain one place up is the same as moving the argument of their polynomial on
by the generator, not only at the elements of the domain but everywhere: each coefficient is
multiplied by a power of the generator.

* `rotated_eq_rotate`, `map_rotated` — rotation as the library has it, and under a map;
* `Domain.rotated_elements` — the elements, rotated, are their multiples by the generator;
* `Poly.dilate` — the polynomial at the multiples by a factor, coefficient by coefficient;
* `Domain.interpolate_rotated_eq_ok` — which is the polynomial of the rotated values;
* `Domain.interpolate_rotated` — values at all points, and all coefficients.
-/

namespace PlonkKzg

/-! ### Rotation -/

theorem rotated_eq_rotate {α : Type} (as : List α) : rotated as = as.rotate 1 := by
  cases as with
  | nil => rfl
  | cons a as => rw [rotated, List.rotate_cons_succ, List.rotate_zero]

theorem map_rotated {α β : Type} (f : α → β) (as : List α) :
    (rotated as).map f = rotated (as.map f) := by
  rw [rotated_eq_rotate, rotated_eq_rotate, List.map_rotate]

theorem getD_rotated {as : List Scalar} {n i : Nat} (h : as.length = n) (hi : i < n) :
    (rotated as).getD i 0 = as.getD ((i + 1) % n) 0 := by
  subst h
  rw [rotated_eq_rotate, List.getD_eq_getElem?_getD, List.getElem?_rotate hi,
    List.getD_eq_getElem?_getD]

/-- A progression that comes back to its start after as many terms as it has. -/
theorem rotated_geometric {start ratio : Scalar} {n : Nat} (h : ratio ^ n = 1) :
    rotated (geometric start ratio n) = geometric (start * ratio) ratio n := by
  cases n with
  | zero => rfl
  | succ n =>
      have hback : start * ratio * ratio ^ n = start := by rw [mul_assoc, ← pow_succ', h, mul_one]
      have hlast : [start] = geometric (start * ratio * ratio ^ n) ratio 1 := by rw [hback]; rfl
      rw [geometric, rotated, hlast, geometric_append]

/-- Rotating the elements multiplies them by the generator. -/
theorem Domain.rotated_elements (d : Domain) :
    rotated d.elements = d.elements.map (d.generator * ·) := by
  rw [elements, rotated_geometric d.generator_primitive.pow_eq_one, map_mul_geometric, mul_comm]

/-! ### Polynomials at the multiples by a factor -/

namespace Poly

def dilate (p : Poly) (w : Scalar) : Poly :=
  ⟨List.zipWith (· * ·) p.coefs (geometric 1 w p.coefs.length)⟩

variable (p : Poly) (w : Scalar)

@[simp] theorem dilate_length : (p.dilate w).coefs.length = p.coefs.length := by
  rw [dilate, List.length_zipWith, geometric_length, Nat.min_self]

/-- Dilating the coefficients dilates the argument. -/
theorem eval_dilate (x : Scalar) : (p.dilate w).eval x = p.eval (w * x) := by
  rw [eval, dilate, evalCoefs_zipWith_geometric rfl, one_mul, eval]

theorem getElem?_dilate (k : Nat) : (p.dilate w).coefs[k]? = p.coefs[k]?.map (w ^ k * ·) := by
  rw [dilate, geometric_eq_map, List.getElem?_zipWith]
  by_cases hk : k < p.coefs.length
  · rw [List.getElem?_map, List.getElem?_range hk, List.getElem?_eq_getElem hk]
    simp [mul_comm]
  · rw [List.getElem?_eq_none (Nat.not_lt.1 hk)]
    rfl

theorem coef_dilate (k : Nat) : (p.dilate w).coef k = w ^ k * p.coef k := by
  rw [coef, coef, List.getD_eq_getElem?_getD, List.getD_eq_getElem?_getD, getElem?_dilate]
  cases p.coefs[k]? with
  | none => exact (mul_zero _).symm
  | some c => rfl

variable {p w}

/-- A factor other than zero keeps the highest coefficient from vanishing. -/
theorem Trimmed.dilate (hp : p.Trimmed) (hw : w ≠ 0) : (p.dilate w).Trimmed := by
  obtain ⟨hne, hhigh⟩ := hp
  have hlen := p.dilate_length w
  refine ⟨?_, ?_⟩
  · rw [← List.length_pos_iff, hlen]
    exact List.length_pos_iff.2 hne
  · rw [hlen]
    refine hhigh.imp_right fun hlast hzero => hlast ?_
    rw [List.getLast?_eq_getElem?, hlen, getElem?_dilate, ← List.getLast?_eq_getElem?] at hzero
    obtain ⟨c, hc, hmul⟩ := Option.map_eq_some_iff.1 hzero
    rw [hc, (mul_eq_zero.1 hmul).resolve_left (pow_ne_zero _ hw)]

end Poly

/-! ### Interpolation of rotated values -/

namespace Domain

variable {d : Domain} {z : List Scalar} {p : Poly}

/-- The interpolant of rotated values is the dilated interpolant. -/
theorem interpolate_rotated_eq_ok (h : d.interpolate z = .ok p) :
    d.interpolate (rotated z) = .ok (p.dilate d.generator) := by
  obtain ⟨htrimmed, hlen, hvalues⟩ := interpolate_eq_ok_iff.1 h
  -- The dilated polynomial is trimmed and short enough, so its values at the elements decide.
  refine interpolate_eq_ok_iff.2 ⟨htrimmed.dilate d.generator_ne_zero, ?_, ?_⟩
  · rwa [Poly.dilate_length]
  · calc d.elements.map (p.dilate d.generator).eval
        = d.elements.map (p.eval ∘ (d.generator * ·)) :=
          List.map_congr_left fun x _ => p.eval_dilate d.generator x
      _ = (rotated d.elements).map p.eval := by rw [rotated_elements, List.map_map]
      _ = rotated z := by rw [map_rotated, hvalues]

/-- The polynomial of rotated values is that of the values at the multiples by the generator. -/
theorem interpolate_rotated {n depth : Nat} (hd : ofSize n depth = .ok d) (hz : z.length = n) :
    ∃ p q : Poly, d.interpolate z = .ok p ∧ d.interpolate (rotated z) = .ok q ∧
      (∀ x, q.eval x = p.eval (x * d.generator)) ∧
      q.coefs.length = p.coefs.length ∧ ∀ k, q.coef k = d.generator ^ k * p.coef k := by
  obtain ⟨p, hp⟩ := interpolate_isOk (d := d) (hz.trans (ofSize_eq_ok hd).1.symm)
  refine ⟨p, _, hp, interpolate_rotated_eq_ok hp, fun x => ?_, p.dilate_length _, p.coef_dilate _⟩
  rw [p.eval_dilate, mul_comm]

/-- Three values that are different and a zero. -/
theorem interpolate_rotated_four : ∃ (d : Domain) (p q : Poly), ofSize 4 2 = .ok d ∧
    d.interpolate [1, 1 + 1, 0, -1] = .ok p ∧ d.interpolate [1 + 1, 0, -1, 1] = .ok q ∧
    (∀ x, q.eval x = p.eval (x * d.generator)) ∧
    q.coefs.length = p.coefs.length ∧ ∀ k, q.coef k = d.generator ^ k * p.coef k := by
  have hd : ofSize 4 2 = .ok ⟨2, 2, by decide⟩ := rfl
  have hz : ([1, 1 + 1, 0, -1] : List Scalar).length = 4 := rfl
  obtain ⟨p, q, h⟩ := interpolate_rotated hd hz
  exact ⟨_, p, q, hd, h⟩

end Domain

end PlonkKzg
