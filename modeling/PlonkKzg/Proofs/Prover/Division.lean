import PlonkKzg.Proofs.Domain.Lagrange
import PlonkKzg.Proofs.Prover.Quotient

/-!
# Division on the odd cosets

The quotient is computed from lists of values, whether or not these come from polynomials whose
combination is a multiple of `X ^ N - 1`. The result is always the polynomial whose product with
`X ^ N - 1` has the combined values at the points, and there is only one.

* `quotient_isOk_iff`, `quotient_eq_error_iff` — lists of the right length are divided, and other
  lists are refused;
* `quotient_trimmed`, `quotient_mul_eq` — the result is trimmed, and its products;
* `eq_quotient_of_mul_eq` — nothing else has these products;
* `quotient_divides` — all of it, for a domain of `n` points and one of four times as many.
-/

namespace PlonkKzg

open Polynomial

/-- A list of values at different points is a function of the points. -/
theorem exists_map_eq {α : Type} [Inhabited α] {points : List Scalar} {vs : List α}
    (hnodup : points.Nodup) (hlen : vs.length = points.length) :
    ∃ f : Scalar → α, points.map f = vs := by
  induction points generalizing vs with
  | nil => exact ⟨fun _ => default, (List.length_eq_zero_iff.1 hlen).symm⟩
  | cons x points ih =>
      cases vs with
      | nil => cases hlen
      | cons v vs =>
          obtain ⟨hx, hrest⟩ := List.nodup_cons.1 hnodup
          obtain ⟨f, rfl⟩ := ih hrest (Nat.succ.inj hlen)
          refine ⟨Function.update f x v, ?_⟩
          rw [List.map_cons, Function.update_self, List.map_congr_left fun y hy => ?_]
          exact Function.update_of_ne (fun hyx : y = x => hx (hyx ▸ hy)) v f

section

variable {d q : Domain} {gates ordering : List Scalar}

/-- The quotient exists exactly for two lists of the coset points' number. -/
theorem quotient_isOk_iff (hq : q.Refines d) (alpha : Scalar) :
    (∃ h, quotient d q gates ordering alpha = .ok h) ↔
      gates.length = cosetCount * d.size ∧ ordering.length = cosetCount * d.size := by
  constructor
  · rintro ⟨h, hok⟩
    simp only [quotient, require_eq_ok_iff, not_not] at hok
    obtain ⟨⟨hgates, hordering, -⟩, -⟩ := hok
    exact ⟨hgates, hordering.trans hgates⟩
  · rintro ⟨hgates, hordering⟩
    have hnodup := Domain.cosetPoints_nodup hq.depth
    have hlength := Domain.cosetPoints_length hq.depth
    obtain ⟨g, rfl⟩ := exists_map_eq hnodup (hgates.trans hlength.symm)
    obtain ⟨t, rfl⟩ := exists_map_eq hnodup (hordering.trans hlength.symm)
    obtain ⟨h, hok, -⟩ := quotient_isOk hq g t alpha
    exact ⟨h, hok⟩

variable {alpha : Scalar}

/-- The one refusal and when it comes. -/
theorem quotient_eq_error_iff (hq : q.Refines d) {e : Error} :
    quotient d q gates ordering alpha = .error e ↔ e = .badArguments ∧
      ¬(gates.length = cosetCount * d.size ∧ ordering.length = cosetCount * d.size) := by
  constructor
  · intro herror
    have hlength : ¬(gates.length = cosetCount * d.size ∧
        ordering.length = cosetCount * d.size) := by
      intro hfit
      obtain ⟨h, hok⟩ := (quotient_isOk_iff hq alpha).2 hfit
      rw [hok] at herror
      cases herror
    refine ⟨?_, hlength⟩
    rw [quotient, require_eq_error_iff] at herror
    obtain ⟨-, rfl⟩ | ⟨hfit, -⟩ := herror
    · rfl
    · obtain ⟨hgates, hordering, -⟩ := not_not.1 hfit
      exact absurd ⟨hgates, hordering.trans hgates⟩ hlength
  · rintro ⟨rfl, hlength⟩
    rw [quotient, require_eq_error_iff]
    refine .inl ⟨fun hfit => hlength ⟨hfit.1, hfit.2.1.trans hfit.1⟩, rfl⟩

/-- The quotient is trimmed and within four times the domain. -/
theorem quotient_trimmed (hq : q.Refines d) {h : Poly}
    (hok : quotient d q gates ordering alpha = .ok h) :
    h.Trimmed ∧ h.coefs.length ≤ cosetCount * d.size := by
  simp only [quotient, require_eq_ok_iff, bind_eq_ok_iff] at hok
  obtain ⟨-, inverses, -, hinterpolate⟩ := hok
  have hspec := hq.interpolateCosets_eq_ok_iff.1 hinterpolate
  exact ⟨hspec.trimmed, hspec.length_le.trans_eq (Domain.cosetPoints_length hq.depth)⟩

/-- The product of the quotient with `x ^ N - 1` at the numbered points. -/
theorem quotient_mul_eq (hq : q.Refines d) {h : Poly}
    (hok : quotient d q gates ordering alpha = .ok h) {i j : Nat} (hi : i < d.size)
    (hj : j < cosetCount) :
    h.eval (d.generator ^ i * d.finerGenerator ^ (2 * j + 1)) *
        ((d.generator ^ i * d.finerGenerator ^ (2 * j + 1)) ^ d.size - 1) =
      gates.getD (cosetCount * i + j) 0 + alpha * ordering.getD (cosetCount * i + j) 0 := by
  have hnodup := Domain.cosetPoints_nodup hq.depth
  have hlength := Domain.cosetPoints_length hq.depth
  obtain ⟨hgates, hordering⟩ := (quotient_isOk_iff hq alpha).1 ⟨h, hok⟩
  obtain ⟨g, rfl⟩ := exists_map_eq hnodup (hgates.trans hlength.symm)
  obtain ⟨t, rfl⟩ := exists_map_eq hnodup (hordering.trans hlength.symm)
  obtain ⟨h', hok', -, -, hvalues⟩ := quotient_isOk hq g t alpha
  obtain rfl := Except.ok.inj (hok'.symm.trans hok)
  have hget := fun (f : Scalar → Scalar) =>
    ((Domain.map_cosetPoints_eq_iff hq.depth).1 (Eq.refl (d.cosetPoints.map f))).2 i hi j hj
  have hpoint := (Domain.mem_cosetPoints_iff_exists hq.depth).2 ⟨i, hi, j, hj, rfl⟩
  rw [List.getD_eq_getElem?_getD, List.getD_eq_getElem?_getD, hget g, hget t]
  exact hvalues _ hpoint

/-- Two trimmed polynomials with the same products have the same values, as no factor is zero. -/
theorem eq_quotient_of_mul_eq (hq : q.Refines d) {h r : Poly}
    (hok : quotient d q gates ordering alpha = .ok h) (hr : r.Trimmed)
    (hle : r.coefs.length ≤ cosetCount * d.size)
    (hproducts : ∀ i < d.size, ∀ j < cosetCount,
      r.eval (d.generator ^ i * d.finerGenerator ^ (2 * j + 1)) *
          ((d.generator ^ i * d.finerGenerator ^ (2 * j + 1)) ^ d.size - 1) =
        gates.getD (cosetCount * i + j) 0 + alpha * ordering.getD (cosetCount * i + j) 0) :
    r = h := by
  have hlength := Domain.cosetPoints_length hq.depth
  obtain ⟨htrimmed, hle'⟩ := quotient_trimmed hq hok
  refine Poly.Interpolates.unique (Domain.cosetPoints_nodup hq.depth)
    ⟨hr, hle.trans_eq hlength.symm, rfl⟩
    ⟨htrimmed, hle'.trans_eq hlength.symm, List.map_congr_left fun x hx => ?_⟩
  obtain ⟨i, hi, j, hj, rfl⟩ := (Domain.mem_cosetPoints_iff_exists hq.depth).1 hx
  have hnonzero := sub_ne_zero.2 (Domain.pow_size_ne_one_of_mem_cosetPoints hq.depth hx)
  exact mul_right_cancel₀ hnonzero
    ((quotient_mul_eq hq hok hi hj).trans (hproducts i hi j hj).symm)

end

/-- The quotient of any lists of values, and which lists are refused. -/
theorem quotient_divides {n : Nat} {d q : Domain} (hd : Domain.ofSize n 3 = .ok d)
    (hq : Domain.ofSize (4 * n) 1 = .ok q) (gates ordering : List Scalar) (alpha : Scalar) :
    (∀ e, quotient d q gates ordering alpha = .error e ↔
      e = .badArguments ∧ ¬(gates.length = 4 * n ∧ ordering.length = 4 * n)) ∧
    (gates.length = 4 * n → ordering.length = 4 * n →
      ∃ h, quotient d q gates ordering alpha = .ok h ∧
        (∀ r : Poly, r = h ↔ r.Trimmed ∧ r.coefs.length ≤ 4 * n ∧ ∀ i < n, ∀ j < 4,
          r.eval (d.generator ^ i * d.finerGenerator ^ (2 * j + 1)) *
              ((d.generator ^ i * d.finerGenerator ^ (2 * j + 1)) ^ n - 1) =
            gates.getD (4 * i + j) 0 + alpha * ordering.getD (4 * i + j) 0) ∧
        ∀ r : Poly, r.coefs.length ≤ 4 * n →
          (∀ i < n, ∀ j < 4, (r.toPolynomial * (X ^ n - 1)).eval
              (d.generator ^ i * d.finerGenerator ^ (2 * j + 1)) =
            gates.getD (4 * i + j) 0 + alpha * ordering.getD (4 * i + j) 0) →
          h = Poly.ofCoefs r.coefs) := by
  have hrefines : q.Refines d := Domain.refines_of_ofSize hd hq
  obtain ⟨rfl, -⟩ := Domain.ofSize_eq_ok hd
  refine ⟨fun e => quotient_eq_error_iff hrefines, fun hgates hordering => ?_⟩
  obtain ⟨h, hok⟩ := (quotient_isOk_iff hrefines alpha).2 ⟨hgates, hordering⟩
  obtain ⟨htrimmed, hle⟩ := quotient_trimmed hrefines hok
  refine ⟨h, hok, fun r => ⟨?_, fun ⟨hr, hrle, hproducts⟩ =>
    eq_quotient_of_mul_eq hrefines hok hr hrle hproducts⟩, fun r hrle hproducts => ?_⟩
  · rintro rfl
    exact ⟨htrimmed, hle, fun i hi j hj => quotient_mul_eq hrefines hok hi hj⟩
  · have hbound : (Poly.ofCoefs r.coefs).coefs.length ≤ 4 * d.size := by
      refine Poly.ofCoefs_length_le hrle ?_
      have := d.size_pos
      omega
    refine (eq_quotient_of_mul_eq hrefines hok (Poly.ofCoefs_trimmed _) hbound ?_).symm
    intro i hi j hj
    refine Eq.trans ?_ (hproducts i hi j hj)
    rw [eval_mul, Poly.eval_toPolynomial, Poly.eval_ofCoefs, eval_sub, eval_pow, eval_X, eval_one,
      Poly.eval]

/-- Eight values each, on the odd cosets of the domain of two points. They do not come from a
multiple of `X ^ 2 - 1`. -/
theorem quotient_divides_two : ∃ (d q : Domain) (gates ordering : List Scalar),
    Domain.ofSize 2 3 = .ok d ∧ Domain.ofSize (4 * 2) 1 = .ok q ∧
    gates = [1, 0, 0, 1, 0, 1, 1, 0] ∧ ordering = [0, 0, 1, 1, 0, 0, 1, 1] ∧
    (∀ e, quotient d q gates ordering 1 = .error e ↔
      e = .badArguments ∧ ¬(gates.length = 4 * 2 ∧ ordering.length = 4 * 2)) ∧
    (gates.length = 4 * 2 → ordering.length = 4 * 2 →
      ∃ h, quotient d q gates ordering 1 = .ok h ∧
        (∀ r : Poly, r = h ↔ r.Trimmed ∧ r.coefs.length ≤ 4 * 2 ∧ ∀ i < 2, ∀ j < 4,
          r.eval (d.generator ^ i * d.finerGenerator ^ (2 * j + 1)) *
              ((d.generator ^ i * d.finerGenerator ^ (2 * j + 1)) ^ 2 - 1) =
            gates.getD (4 * i + j) 0 + 1 * ordering.getD (4 * i + j) 0) ∧
        ∀ r : Poly, r.coefs.length ≤ 4 * 2 →
          (∀ i < 2, ∀ j < 4, (r.toPolynomial * (X ^ 2 - 1)).eval
              (d.generator ^ i * d.finerGenerator ^ (2 * j + 1)) =
            gates.getD (4 * i + j) 0 + 1 * ordering.getD (4 * i + j) 0) →
          h = Poly.ofCoefs r.coefs) := by
  have hd : Domain.ofSize 2 3 = .ok ⟨1, 3, by decide⟩ := rfl
  have hq : Domain.ofSize (4 * 2) 1 = .ok ⟨3, 1, by decide⟩ := rfl
  exact ⟨_, _, [1, 0, 0, 1, 0, 1, 1, 0], [0, 0, 1, 1, 0, 0, 1, 1], hd, hq, rfl, rfl,
    quotient_divides hd hq _ _ 1⟩

end PlonkKzg
