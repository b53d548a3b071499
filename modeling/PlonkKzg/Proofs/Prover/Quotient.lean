import PlonkKzg.Prover.Quotient
import PlonkKzg.Proofs.Circuit.Rows
import PlonkKzg.Proofs.Domain.Vanishing

/-!
# The values that the quotient is computed from

The equations point by point, and the polynomials that have these values.

* `gateValues_eq_ok`, `orderingValues_eq_ok` — the two equations at a list of points;
* `quotient_isOk` — the polynomial that is the quotient at the points of the odd cosets;
* `gatePolynomial`, `orderingPolynomial` — the equations as polynomials;
* `natDegree_gatePolynomial_le`, `natDegree_orderingPolynomial_le` — and their degrees.
-/

namespace PlonkKzg

open Polynomial

/-! ### At a list of points -/

theorem Wires.rows_map {α : Type} (f : α → Scalar → Scalar) (w : Wires α) (xs : List Scalar) :
    (w.map fun p => xs.map (f p)).rows = xs.map fun x => w.map (f · x) := by
  simp only [Wires.rows, Wires.map, List.zip_map', List.zipWith_map, List.zipWith_self]

theorem Selectors.rows_map {α : Type} (f : α → Scalar → Scalar) (q : Selectors α)
    (xs : List Scalar) :
    (q.map fun p => xs.map (f p)).rows = xs.map fun x => q.map (f · x) := by
  simp only [Selectors.rows, Selectors.map, List.zip_map', List.zipWith_map, List.zipWith_self]

theorem sameLength_of_forall {columns : List (List Scalar)} {n : Nat}
    (h : ∀ column ∈ columns, column.length = n) : SameLength columns := by
  cases columns with
  | nil => intro column hcolumn; cases hcolumn
  | cons first rest =>
      intro column hcolumn
      rw [h column hcolumn, List.headD_cons, h first List.mem_cons_self]

/-- Gate values computed row by row are the gate equation at every point. -/
theorem gateValues_eq_ok {α : Type} (f : α → Scalar → Scalar) (q : Selectors α) (w : Wires α)
    (xs : List Scalar) :
    gateValues (q.map fun p => xs.map (f p)) (w.map fun p => xs.map (f p)) =
      .ok (xs.map fun x => gateValue (q.map (f · x)) (w.map (f · x))) := by
  have hsame : SameLength ((q.map fun p => xs.map (f p)).toList ++
      (w.map fun p => xs.map (f p)).toList) := by
    refine sameLength_of_forall (n := xs.length) ?_
    simp [Selectors.toList, Selectors.map, Wires.toList, Wires.map]
  rw [gateValues, if_pos hsame, Selectors.rows_map, Wires.rows_map, List.zipWith_map,
    List.zipWith_self]

/-- Ordering values computed row by row are the ordering equation at every point. -/
theorem orderingValues_eq_ok {α : Type} (f : α → Scalar → Scalar) (s : Shifters) (gamma : Scalar)
    (w sigma : Wires α) (z zNext : α) (xs : List Scalar) :
    orderingValues s gamma (w.map fun p => xs.map (f p))
        ⟨xs, xs.map (f z), xs.map (f zNext), sigma.map fun p => xs.map (f p)⟩ =
      .ok (xs.map fun x => orderingValue s gamma (w.map (f · x))
        ⟨x, f z x, f zNext x, sigma.map (f · x)⟩) := by
  have hsame : SameLength ((w.map fun p => xs.map (f p)).toList ++ AccumulatorColumns.toList
      ⟨xs, xs.map (f z), xs.map (f zNext), sigma.map fun p => xs.map (f p)⟩) := by
    refine sameLength_of_forall (n := xs.length) ?_
    simp [AccumulatorColumns.toList, Wires.toList, Wires.map]
  have hpoints : AccumulatorColumns.points
      ⟨xs, xs.map (f z), xs.map (f zNext), sigma.map fun p => xs.map (f p)⟩ =
        xs.map fun x => ⟨x, f z x, f zNext x, sigma.map (f · x)⟩ := by
    have hxs := List.map_id xs
    simp only [AccumulatorColumns.points, Wires.rows_map, List.zip_map']
    conv_lhs => rw [← hxs, List.map_map, List.zipWith_map, List.zipWith_self]
    rfl
  rw [orderingValues, if_pos hsame, hpoints, Wires.rows_map, List.zipWith_map, List.zipWith_self]

/-- From the values of both equations on the odd cosets, the polynomial that is their combination
divided by `x ^ N - 1` there. -/
theorem quotient_isOk {d q : Domain} (hq : q.Refines d) (gates ordering : Scalar → Scalar)
    (alpha : Scalar) :
    ∃ h, quotient d q (d.cosetPoints.map gates) (d.cosetPoints.map ordering) alpha = .ok h ∧
      h.coefs.length ≤ cosetCount * d.size ∧ h.coefs ≠ [] ∧
      ∀ x ∈ d.cosetPoints, h.eval x * (x ^ d.size - 1) = gates x + alpha * ordering x := by
  obtain ⟨inverses, hinverses, hflat⟩ := Domain.vanishingInverses_eq_ok hq.depth
  have hlen := Domain.cosetPoints_length hq.depth
  have hfit : (d.cosetPoints.map gates).length = cosetCount * d.size ∧
      (d.cosetPoints.map ordering).length = (d.cosetPoints.map gates).length ∧
      q.size = (d.cosetPoints.map gates).length := by
    simp only [List.length_map, hlen, hq.size, and_self]
  have hvs : (d.cosetPoints.map fun x =>
      (gates x + alpha * ordering x) * (x ^ d.size - 1)⁻¹).length = cosetCount * d.size := by
    rw [List.length_map, hlen]
  obtain ⟨h, hok, hle, hne, hvalues⟩ := hq.interpolateCosets_isOk hvs
  refine ⟨h, ?_, hle, hne, fun x hx => ?_⟩
  · simp only [quotient, require_eq_ok_iff, bind_eq_ok_iff]
    refine ⟨not_not.2 hfit, inverses, hinverses, ?_⟩
    rw [hflat, List.zipWith_map, List.zipWith_self, List.zipWith_map, List.zipWith_self]
    exact hok
  · have hvalue := List.map_inj_left.1 hvalues x hx
    have hnonzero := sub_ne_zero.2 (Domain.pow_size_ne_one_of_mem_cosetPoints hq.depth hx)
    rw [hvalue, inv_mul_cancel_right₀ hnonzero]

/-! ### As polynomials -/

noncomputable def gatePolynomial (q : Selectors Poly) (w : Wires Poly) : Scalar[X] :=
  q.ql.toPolynomial * w.l.toPolynomial + q.qr.toPolynomial * w.r.toPolynomial +
    q.qm.toPolynomial * w.l.toPolynomial * w.r.toPolynomial +
    q.qo.toPolynomial * w.o.toPolynomial + q.qk.toPolynomial

/-- The factors of all rows, with the labels that three polynomials give. -/
noncomputable def factorPolynomial (gamma : Scalar) (w : Wires Poly) (labels : Wires Scalar[X]) :
    Scalar[X] :=
  (w.l.toPolynomial + C gamma + labels.l) * (w.r.toPolynomial + C gamma + labels.r) *
    (w.o.toPolynomial + C gamma + labels.o)

/-- The equation of the accumulator, times the left wire. -/
noncomputable def orderingPolynomial (s : Shifters) (gamma : Scalar) (w sigma : Wires Poly)
    (z zNext : Poly) : Scalar[X] :=
  (zNext.toPolynomial * factorPolynomial gamma w (sigma.map Poly.toPolynomial) -
    z.toPolynomial * factorPolynomial gamma w (s.columns.map fun k => C k * X)) *
      w.l.toPolynomial

/-- The gate polynomial takes the gate equation's values. -/
theorem eval_gatePolynomial (q : Selectors Poly) (w : Wires Poly) (x : Scalar) :
    (gatePolynomial q w).eval x = gateValue (q.map (·.eval x)) (w.map (·.eval x)) := by
  simp only [gatePolynomial, gateValue, Selectors.map, Wires.map, eval_add, eval_mul,
    Poly.eval_toPolynomial]

theorem eval_factorPolynomial (gamma : Scalar) (w : Wires Poly) (labels : Wires Scalar[X])
    (x : Scalar) : (factorPolynomial gamma w labels).eval x =
      rowFactor gamma (w.map (·.eval x)) (labels.map (eval x)) := by
  simp only [factorPolynomial, rowFactor, Wires.map, eval_add, eval_mul, eval_C,
    Poly.eval_toPolynomial]

/-- The ordering polynomial takes the ordering equation's values. -/
theorem eval_orderingPolynomial (s : Shifters) (gamma : Scalar) (w sigma : Wires Poly)
    (z zNext : Poly) (x : Scalar) :
    (orderingPolynomial s gamma w sigma z zNext).eval x =
      orderingValue s gamma (w.map (·.eval x))
        ⟨x, z.eval x, zNext.eval x, sigma.map (·.eval x)⟩ := by
  simp only [orderingPolynomial, orderingValue, Shifters.rowLabels, eval_mul, eval_sub,
    eval_factorPolynomial, Poly.eval_toPolynomial, Wires.map, eval_C, eval_X]

/-! ### Degrees -/

theorem natDegree_toPolynomial_le {p : Poly} {m : Nat} (h : p.coefs.length ≤ m + 1) :
    p.toPolynomial.natDegree ≤ m :=
  natDegree_le_of_degree_le (Order.lt_succ_iff.1 (Poly.degree_toPolynomial_lt h))

section

variable {m : Nat}

/-- A gate multiplies at most three columns. -/
theorem natDegree_gatePolynomial_le {q : Selectors Poly} {w : Wires Poly}
    (hq : ∀ p ∈ q.toList, p.coefs.length ≤ m + 1) (hw : ∀ p ∈ w.toList, p.coefs.length ≤ m + 1) :
    (gatePolynomial q w).natDegree ≤ 5 * m := by
  obtain ⟨hql, hqr, hqm, hqo, hqk⟩ := Selectors.forall_mem_toList.1 hq
  obtain ⟨hl, hr, ho⟩ := Wires.forall_mem_toList.1 hw
  have hmul : ∀ p r : Poly, p.coefs.length ≤ m + 1 → r.coefs.length ≤ m + 1 →
      (p.toPolynomial * r.toPolynomial).natDegree ≤ m + m := fun p r hp hr =>
    natDegree_mul_le_of_le (natDegree_toPolynomial_le hp) (natDegree_toPolynomial_le hr)
  refine natDegree_add_le_of_degree_le (natDegree_add_le_of_degree_le
    (natDegree_add_le_of_degree_le (natDegree_add_le_of_degree_le ?_ ?_) ?_) ?_) ?_
  · exact (hmul _ _ hql hl).trans (by omega)
  · exact (hmul _ _ hqr hr).trans (by omega)
  · exact (natDegree_mul_le_of_le (hmul _ _ hqm hl) (natDegree_toPolynomial_le hr)).trans
      (by omega)
  · exact (hmul _ _ hqo ho).trans (by omega)
  · exact (natDegree_toPolynomial_le hqk).trans (by omega)

theorem natDegree_factorPolynomial_le (gamma : Scalar) {w : Wires Poly} {labels : Wires Scalar[X]}
    (hw : ∀ p ∈ w.toList, p.coefs.length ≤ m + 1)
    (hlabels : ∀ p ∈ labels.toList, p.natDegree ≤ m) :
    (factorPolynomial gamma w labels).natDegree ≤ m + m + m := by
  obtain ⟨hl, hr, ho⟩ := Wires.forall_mem_toList.1 hw
  obtain ⟨hll, hlr, hlo⟩ := Wires.forall_mem_toList.1 hlabels
  have hfactor : ∀ (p : Poly) (label : Scalar[X]), p.coefs.length ≤ m + 1 → label.natDegree ≤ m →
      (p.toPolynomial + C gamma + label).natDegree ≤ m := fun p label hp hlabel =>
    natDegree_add_le_of_degree_le (natDegree_add_le_of_degree_le (natDegree_toPolynomial_le hp)
      ((natDegree_C gamma).trans_le (Nat.zero_le m))) hlabel
  exact natDegree_mul_le_of_le
    (natDegree_mul_le_of_le (hfactor _ _ hl hll) (hfactor _ _ hr hlr)) (hfactor _ _ ho hlo)

/-- The ordering equation multiplies at most five columns. -/
theorem natDegree_orderingPolynomial_le (s : Shifters) (gamma : Scalar) {w sigma : Wires Poly}
    {z zNext : Poly} (hm : 1 ≤ m) (hw : ∀ p ∈ w.toList, p.coefs.length ≤ m + 1)
    (hsigma : ∀ p ∈ sigma.toList, p.coefs.length ≤ m + 1) (hz : z.coefs.length ≤ m + 1)
    (hzNext : zNext.coefs.length ≤ m + 1) :
    (orderingPolynomial s gamma w sigma z zNext).natDegree ≤ 5 * m := by
  have hmultiple : ∀ k : Scalar, (C k * X).natDegree ≤ m := fun k =>
    ((natDegree_C_mul_le k X).trans natDegree_X_le).trans hm
  have hown : ∀ p ∈ (s.columns.map fun k => C k * X).toList, p.natDegree ≤ m :=
    Wires.forall_mem_toList.2 ⟨hmultiple _, hmultiple _, hmultiple _⟩
  obtain ⟨hsl, hsr, hso⟩ := Wires.forall_mem_toList.1 hsigma
  have hnext : ∀ p ∈ (sigma.map Poly.toPolynomial).toList, p.natDegree ≤ m :=
    Wires.forall_mem_toList.2 ⟨natDegree_toPolynomial_le hsl, natDegree_toPolynomial_le hsr,
      natDegree_toPolynomial_le hso⟩
  have hl : w.l.toPolynomial.natDegree ≤ m :=
    natDegree_toPolynomial_le (Wires.forall_mem_toList.1 hw).1
  have hproducts := natDegree_sub_le_of_le
    (natDegree_mul_le_of_le (natDegree_toPolynomial_le hzNext)
      (natDegree_factorPolynomial_le gamma hw hnext))
    (natDegree_mul_le_of_le (natDegree_toPolynomial_le hz)
      (natDegree_factorPolynomial_le gamma hw hown))
  rw [max_self] at hproducts
  exact (natDegree_mul_le_of_le hproducts hl).trans (by omega)

end

end PlonkKzg
