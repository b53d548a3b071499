import PlonkKzg.Prover.Proof
import PlonkKzg.Proofs.Domain.Rotation
import PlonkKzg.Proofs.Prover.Accumulator
import PlonkKzg.Proofs.Prover.Quotient

/-!
# The quotient of wires and accumulator

The polynomials of arbitrary wire columns and of an arbitrary accumulator, and when the quotient
that is computed from them is the quotient of their equations.

* `Preprocessed.Trace`, `Preprocessed.Trace.Interpolates` — the polynomials;
* `Preprocessed.Trace.Interpolates.eval_zNext` — the accumulator one row on is the accumulator at
  the next element, at every point;
* `Preprocessed.combined`, `Circuit.Describes.eval_combined_row` — both equations in one, and what
  it says on a row;
* `Circuit.Describes.quotientPoly_isOk` — the quotient is always computed;
* `Circuit.Describes.quotient_mul_vanishing_iff` — and is exact if and only if the combined equation
  holds on all rows.
-/

namespace PlonkKzg

open Polynomial

/-! ### Values on the rows -/

/-- An interpolant takes the values it was made from. -/
theorem Domain.eval_of_interpolate {d : Domain} {vs : List Scalar} {p : Poly}
    (h : d.interpolate vs = .ok p) {i : Nat} (hi : i < d.size) :
    p.eval (d.generator ^ i) = vs.getD i 0 := by
  obtain ⟨-, -, -, hvalues⟩ := interpolate_eq_ok h
  rw [← hvalues, elements, geometric_eq_map, List.map_map, getD_map_range _ hi, Function.comp_apply,
    one_mul]

theorem Wires.length_le_of_interpolate {d : Domain} {columns : Wires (List Scalar)}
    {ps : Wires Poly} (h : columns.mapM d.interpolate = .ok ps) :
    ∀ p ∈ ps.toList, p.coefs.length ≤ d.size := by
  obtain ⟨hl, hr, ho⟩ := mapM_eq_ok_iff.1 h
  exact forall_mem_toList.2 ⟨(Domain.interpolate_eq_ok hl).2.1,
    (Domain.interpolate_eq_ok hr).2.1, (Domain.interpolate_eq_ok ho).2.1⟩

theorem Wires.eval_of_interpolate {d : Domain} {columns : Wires (List Scalar)} {ps : Wires Poly}
    (h : columns.mapM d.interpolate = .ok ps) {i : Nat} (hi : i < d.size) :
    ps.map (·.eval (d.generator ^ i)) = columns.atRow i := by
  obtain ⟨hl, hr, ho⟩ := mapM_eq_ok_iff.1 h
  exact Wires.ext (Domain.eval_of_interpolate hl hi) (Domain.eval_of_interpolate hr hi)
    (Domain.eval_of_interpolate ho hi)

namespace Preprocessed

structure Trace where
  wires : Wires Poly
  z : Poly
  zNext : Poly

/-- The polynomials have no more coefficients than there are rows. -/
structure Trace.Fits (t : Trace) (d : Domain) : Prop where
  wires : ∀ p ∈ t.wires.toList, p.coefs.length ≤ d.size
  z : t.z.coefs.length ≤ d.size
  zNext : t.zNext.coefs.length ≤ d.size

/-- The polynomials are those of given columns. -/
structure Trace.Interpolates (t : Trace) (d : Domain) (columns : Wires (List Scalar))
    (z : List Scalar) : Prop where
  wires : columns.mapM d.interpolate = .ok t.wires
  zNext : d.interpolate (rotated z) = .ok t.zNext
  z : d.interpolate z = .ok t.z

namespace Trace

variable {d : Domain} {columns : Wires (List Scalar)} {z : List Scalar} {t : Trace}

/-- Columns of the domain's size have interpolants. -/
theorem exists_interpolates (hw : columns.HasLength d.size) (hz : z.length = d.size) :
    ∃ t : Trace, t.Interpolates d columns z := by
  obtain ⟨l, hl⟩ := Domain.interpolate_isOk hw.l
  obtain ⟨r, hr⟩ := Domain.interpolate_isOk hw.r
  obtain ⟨o, ho⟩ := Domain.interpolate_isOk hw.o
  obtain ⟨p, hp⟩ := Domain.interpolate_isOk hz
  obtain ⟨next, hnext⟩ := Domain.interpolate_isOk ((rotated_length z).trans hz)
  exact ⟨⟨⟨l, r, o⟩, p, next⟩, Wires.mapM_eq_ok_iff.2 ⟨hl, hr, ho⟩, hnext, hp⟩

namespace Interpolates

variable (h : t.Interpolates d columns z)
include h

/-- The interpolants are within the domain's size. -/
theorem fits : t.Fits d := by
  exact ⟨Wires.length_le_of_interpolate h.wires, (Domain.interpolate_eq_ok h.z).2.1,
    (Domain.interpolate_eq_ok h.zNext).2.1⟩

/-- The rotated accumulator takes the next row's value, the last row wrapping around. -/
theorem eval_zNext_row {i : Nat} (hi : i < d.size) :
    t.zNext.eval (d.generator ^ i) = z.getD ((i + 1) % d.size) 0 := by
  rw [Domain.eval_of_interpolate h.zNext hi, getD_rotated (Domain.interpolate_eq_ok h.z).1 hi]

/-- One row on is one element on: on all rows, and so everywhere. -/
theorem eval_zNext (x : Scalar) : t.zNext.eval x = t.z.eval (x * d.generator) := by
  have hdilate := Domain.interpolate_rotated_eq_ok h.z
  rw [h.zNext, Except.ok.injEq] at hdilate
  rw [hdilate, Poly.eval_dilate, mul_comm]

end Interpolates

end Trace

variable {G₁ G₂ : Type} (pd : Preprocessed G₁ G₂) (t : Trace) (gamma alpha : Scalar)

/-- The gate equation and that of the accumulator in one. -/
noncomputable def combined : Scalar[X] :=
  gatePolynomial pd.selectors t.wires +
    C alpha * orderingPolynomial pd.shifters gamma t.wires pd.sigmas t.z t.zNext

/-- The combined polynomial takes the combined equation's values. -/
theorem eval_combined (x : Scalar) : (pd.combined t gamma alpha).eval x =
    gateValue (pd.selectors.map (·.eval x)) (t.wires.map (·.eval x)) +
      alpha * orderingValue pd.shifters gamma (t.wires.map (·.eval x))
        ⟨x, t.z.eval x, t.zNext.eval x, pd.sigmas.map (·.eval x)⟩ := by
  rw [combined, eval_add, eval_mul, eval_C, eval_gatePolynomial, eval_orderingPolynomial]

/-- What the accumulator equation misses on a row. -/
def mismatch (columns : Wires (List Scalar)) (z : List Scalar) (i : Nat) : Scalar :=
  z.getD ((i + 1) % pd.domain.size) 0 * pd.denominator columns gamma i -
    z.getD i 0 * pd.numerator columns gamma i

end Preprocessed

namespace Circuit.Describes

open Preprocessed

variable {G₁ G₂ : Type} {c : Circuit} {scheme : Scheme G₁ G₂} {pd : Preprocessed G₁ G₂}
  (h : c.Describes scheme pd)
include h

theorem selectors_length : ∀ p ∈ pd.selectors.toList, p.coefs.length ≤ pd.domain.size := by
  obtain ⟨hql, hqr, hqm, hqo, hqk⟩ := Selectors.mapM_eq_ok_iff.1 h.selectors
  exact Selectors.forall_mem_toList.2 ⟨(Domain.interpolate_eq_ok hql).2.1,
    (Domain.interpolate_eq_ok hqr).2.1, (Domain.interpolate_eq_ok hqm).2.1,
    (Domain.interpolate_eq_ok hqo).2.1, (Domain.interpolate_eq_ok hqk).2.1⟩

/-- The selector polynomials take the rows' coefficients. -/
theorem eval_selectors {i : Nat} (hi : i < pd.domain.size) :
    pd.selectors.map (·.eval (pd.domain.generator ^ i)) = c.rowSelectors i := by
  obtain ⟨hql, hqr, hqm, hqo, hqk⟩ := Selectors.mapM_eq_ok_iff.1 h.selectors
  rw [← atRow_selectorColumns (n := c.domainSize) (by rwa [← h.domainSize])]
  exact Selectors.ext (Domain.eval_of_interpolate hql hi) (Domain.eval_of_interpolate hqr hi)
    (Domain.eval_of_interpolate hqm hi) (Domain.eval_of_interpolate hqo hi)
    (Domain.eval_of_interpolate hqk hi)

/-- On a row: the gate equation on the values there, and what the accumulator misses, times the
left value. -/
theorem eval_combined_row {columns : Wires (List Scalar)} {z : List Scalar} {t : Trace}
    (ht : t.Interpolates pd.domain columns z) (gamma alpha : Scalar) {i : Nat}
    (hi : i < pd.domain.size) :
    (pd.combined t gamma alpha).eval (pd.domain.generator ^ i) =
      gateValue (c.rowSelectors i) (columns.atRow i) +
        alpha * (pd.mismatch gamma columns z i * (columns.atRow i).l) := by
  rw [eval_combined, h.eval_selectors hi, Wires.eval_of_interpolate h.sigmas hi,
    Wires.eval_of_interpolate ht.wires hi, ht.eval_zNext_row hi,
    Domain.eval_of_interpolate ht.z hi]
  rfl

/-- The combined polynomial has at most five times the degree of a column. -/
theorem natDegree_combined_le {t : Trace} (ht : t.Fits pd.domain) (gamma alpha : Scalar) :
    (pd.combined t gamma alpha).natDegree ≤ 5 * (pd.domain.size - 1) := by
  have htwo : 2 ≤ pd.domain.size := h.domainSize ▸ c.two_le_domainSize
  have hsize : pd.domain.size - 1 + 1 = pd.domain.size := by omega
  have hselectors := h.selectors_length
  have hsigmas := Wires.length_le_of_interpolate h.sigmas
  obtain ⟨hwires, hz, hzNext⟩ := ht
  rw [← hsize] at hselectors hsigmas hwires hz hzNext
  exact natDegree_add_le_of_degree_le (natDegree_gatePolynomial_le hselectors hwires)
    ((natDegree_C_mul_le _ _).trans (natDegree_orderingPolynomial_le _ _ (by omega) hwires hsigmas
      hz hzNext))

/-- The quotient is computed whatever the polynomials are, and it is the quotient on the odd
cosets. -/
theorem quotientPoly_isOk {t : Trace} (ht : t.Fits pd.domain) (gamma alpha : Scalar) :
    ∃ q, pd.quotientPoly t.wires t.z t.zNext gamma alpha = .ok q ∧
      q.coefs.length ≤ cosetCount * pd.domain.size ∧ q.coefs ≠ [] ∧
      ∀ x ∈ pd.domain.cosetPoints,
        q.eval x * (x ^ pd.domain.size - 1) = (pd.combined t gamma alpha).eval x := by
  have hcosets : ∀ p : Poly, p.coefs.length ≤ pd.domain.size →
      pd.domain.evaluateCosets p = .ok (pd.domain.cosetPoints.map p.eval) := fun p hp =>
    Domain.evaluateCosets_eq_ok h.refines.depth hp
  have hselectors : pd.selectors.mapM pd.domain.evaluateCosets = _ :=
    Selectors.mapM_eq_ok_map fun p hp => hcosets p (h.selectors_length p hp)
  have hsigmas : pd.sigmas.mapM pd.domain.evaluateCosets = _ :=
    Wires.mapM_eq_ok_map fun p hp =>
      hcosets p (Wires.length_le_of_interpolate h.sigmas p hp)
  have hwires : t.wires.mapM pd.domain.evaluateCosets = _ :=
    Wires.mapM_eq_ok_map fun p hp => hcosets p (ht.wires p hp)
  have hgates := gateValues_eq_ok Poly.eval pd.selectors t.wires pd.domain.cosetPoints
  have hordering := orderingValues_eq_ok Poly.eval pd.shifters gamma t.wires pd.sigmas t.z t.zNext
    pd.domain.cosetPoints
  obtain ⟨q, hq, hle, hne, hvalues⟩ := quotient_isOk h.refines _ _ alpha
  refine ⟨q, ?_, hle, hne, fun x hx => (hvalues x hx).trans (eval_combined pd t gamma alpha x).symm⟩
  simp only [quotientPoly, bind_eq_ok_iff]
  exact ⟨_, hselectors, _, hsigmas, _, hwires, _, hcosets _ ht.z, _, hcosets _ ht.zNext, _, hgates,
    _, hordering, hq⟩

/-- The quotient is exact if and only if the combined equation holds on all rows. -/
theorem quotient_mul_vanishing_iff {t : Trace} (ht : t.Fits pd.domain) {gamma alpha : Scalar}
    {q : Poly} (hq : pd.quotientPoly t.wires t.z t.zNext gamma alpha = .ok q) :
    q.toPolynomial * pd.domain.vanishing = pd.combined t gamma alpha ↔
      ∀ i < pd.domain.size, (pd.combined t gamma alpha).eval (pd.domain.generator ^ i) = 0 := by
  obtain ⟨q', hq', hle, -, hvalues⟩ := h.quotientPoly_isOk ht gamma alpha
  obtain rfl := Except.ok.inj (hq.symm.trans hq')
  have hdegree : (pd.combined t gamma alpha).natDegree < (cosetCount + 1) * pd.domain.size := by
    have hpos := pd.domain.size_pos
    have hle := h.natDegree_combined_le ht gamma alpha
    rw [cosetCount]
    omega
  refine Domain.mul_vanishing_eq_iff h.refines.depth hdegree
    (Poly.degree_toPolynomial_lt hle) ?_
  intro x hx
  rw [Poly.eval_toPolynomial, hvalues x hx]

end Circuit.Describes

end PlonkKzg
