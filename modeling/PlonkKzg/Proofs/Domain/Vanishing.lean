import Mathlib.Algebra.Polynomial.Div
import PlonkKzg.Proofs.Domain.Interpolation
import PlonkKzg.Proofs.Poly.Polynomial

/-!
# The polynomial that vanishes on a domain

Divisibility by `X ^ N - 1`, and how a quotient is known from its values on the odd cosets.

* `Domain.vanishing`, `Domain.eval_vanishing_of_mem` — the polynomial and its roots;
* `Domain.vanishing_dvd_iff` — it divides what vanishes on all elements;
* `Domain.mul_vanishing_eq_iff` — a polynomial that is the quotient on the odd cosets is the
  quotient if and only if there is one.
-/

namespace PlonkKzg

open Polynomial

namespace Domain

variable (d : Domain)

/-- The polynomial whose roots are the elements. -/
noncomputable def vanishing : Scalar[X] := X ^ d.size - 1

theorem eval_vanishing (x : Scalar) : d.vanishing.eval x = x ^ d.size - 1 := by
  rw [vanishing, eval_sub, eval_pow, eval_X, eval_one]

theorem eval_vanishing_of_mem {x : Scalar} (h : x ∈ d.elements) : d.vanishing.eval x = 0 := by
  rw [eval_vanishing, d.pow_size_of_mem_elements h, sub_self]

theorem vanishing_monic : d.vanishing.Monic := by
  rw [vanishing, ← C_1]
  exact monic_X_pow_sub_C 1 d.size_pos.ne'

theorem natDegree_vanishing : d.vanishing.natDegree = d.size := by
  rw [vanishing, ← C_1]
  exact natDegree_X_pow_sub_C

/-- What vanishes on all elements is a multiple. -/
theorem vanishing_dvd_iff (p : Scalar[X]) :
    d.vanishing ∣ p ↔ ∀ i < d.size, p.eval (d.generator ^ i) = 0 := by
  constructor
  · rintro ⟨q, rfl⟩ i hi
    rw [eval_mul, d.eval_vanishing_of_mem (d.mem_elements_iff.2 ⟨i, hi, rfl⟩), zero_mul]
  · intro h
    -- The remainder has fewer coefficients than there are elements, and vanishes on all of them.
    rw [← modByMonic_eq_zero_iff_dvd d.vanishing_monic]
    have hdegree := degree_modByMonic_lt p d.vanishing_monic
    rw [degree_eq_natDegree d.vanishing_monic.ne_zero, natDegree_vanishing] at hdegree
    have hlen := d.elements_length
    refine Poly.eq_of_map_eval_eq d.elements_nodup (by rwa [hlen]) (by simp) ?_
    intro x hx
    have hsplit := congrArg (eval x) (modByMonic_add_div p d.vanishing)
    rw [eval_add, eval_mul, d.eval_vanishing_of_mem hx, zero_mul, add_zero] at hsplit
    obtain ⟨i, hi, rfl⟩ := d.mem_elements_iff.1 hx
    rw [hsplit, h i hi, eval_zero]

variable {d}

/-- Four times as many values as there are elements determine the quotient, if there is one. -/
theorem mul_vanishing_eq_iff (hdepth : d.depth = 3) {p h : Scalar[X]}
    (hp : p.natDegree < (cosetCount + 1) * d.size) (hh : h.degree < (cosetCount * d.size : Nat))
    (hvalues : ∀ x ∈ d.cosetPoints, h.eval x * (x ^ d.size - 1) = p.eval x) :
    h * d.vanishing = p ↔ ∀ i < d.size, p.eval (d.generator ^ i) = 0 := by
  rw [← vanishing_dvd_iff]
  constructor
  · rintro rfl
    exact dvd_mul_left d.vanishing h
  · rintro ⟨q, rfl⟩
    -- The true quotient is low enough for the values on the cosets to determine it.
    have hq : q.degree < (cosetCount * d.size : Nat) := by
      by_cases hne : q = 0
      · rw [hne, degree_zero]
        exact WithBot.bot_lt_coe _
      · rw [natDegree_mul d.vanishing_monic.ne_zero hne, natDegree_vanishing, Nat.succ_mul] at hp
        rw [degree_eq_natDegree hne]
        exact_mod_cast (by omega : q.natDegree < cosetCount * d.size)
    have hlen := cosetPoints_length hdepth
    have hquotient : h = q := by
      refine Poly.eq_of_map_eval_eq (cosetPoints_nodup hdepth) (by rwa [hlen]) (by rwa [hlen]) ?_
      intro x hx
      have hne := sub_ne_zero.2 (pow_size_ne_one_of_mem_cosetPoints hdepth hx)
      have hvalue := hvalues x hx
      rw [eval_mul, eval_vanishing, mul_comm] at hvalue
      exact mul_left_cancel₀ hne hvalue
    rw [hquotient, mul_comm]

end Domain

end PlonkKzg
