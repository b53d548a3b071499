import PlonkKzg.Proofs.Prover.Rounds
import PlonkKzg.Proofs.Prover.Trace

/-!
# Runs of the prover

The prover gives a proof for every assignment with enough values, satisfied or not, unless a
denominator of the accumulator is zero; and what the values in the proof are.

* `Preprocessed.proveWith_eq_ok` — a proof from the results of all steps;
* `Circuit.Describes.wireRound_isOk`, `Circuit.Describes.accumulatorRound_isOk` — the first rounds;
* `Circuit.Describes.mismatch_layout` — the accumulator of an assignment follows the recurrence on
  all rows, the last one included;
* `Circuit.Describes.exists_run_of_wireColumns`, `Circuit.Describes.exists_run` — the whole run,
  for the columns of any circuit of the same size, and for an assignment of the circuit itself;
* `Preprocessed.IdentityHolds`, `Preprocessed.identityHolds_iff` — the equation that a proof should
  satisfy.
-/

namespace PlonkKzg

namespace Preprocessed

variable {G₁ G₂ : Type} {pd : Preprocessed G₁ G₂}

section

variable [SMul Scalar G₁] [Zero G₁] [Add G₁]

theorem proveWith_eq_ok [Encoded G₁] {c : Circuit} {w : List Scalar} {ch : Challenges}
    {wires : WireRound G₁} {accumulator : AccumulatorRound G₁} {q : Poly} {C : G₁}
    {opening : BatchOpening G₁} {openingNext : Opening G₁} (hfit : pd.requireFit c = .ok ())
    (hwires : pd.wireRound c w = .ok wires)
    (haccumulator : pd.accumulatorRound wires.columns ch.gamma = .ok accumulator)
    (hq : pd.quotientPoly wires.polys accumulator.poly accumulator.polyNext ch.gamma ch.alpha =
      .ok q) (hC : pd.commit q = .ok C)
    (hopening : pd.scheme.batchOpenAt ch.zeta ch.bundle
      (⟨wires.polys, q, accumulator.poly⟩ : Committed Poly).toList = .ok opening)
    (hnext : pd.scheme.openAt (ch.zeta * pd.domain.generator) accumulator.poly =
      .ok openingNext) :
    pd.proveWith c w ch = .ok {
      commitments := ⟨wires.commitments, C, accumulator.commitment⟩
      values := (⟨wires.polys, q, accumulator.poly⟩ : Committed Poly).map (·.eval ch.zeta)
      zNext := accumulator.poly.eval (ch.zeta * pd.domain.generator)
      opening := opening
      openingNext := openingNext } := by
  exact proveWith_eq_ok_iff.2 ⟨⟨wires, accumulator, q⟩, hfit, hwires, haccumulator, hq, rfl, rfl,
    hC, rfl, rfl, hopening, hnext⟩

end

/-- The equation of the gates and of the accumulator, divided by `X ^ N - 1`, at the third
challenge. -/
def IdentityHolds (pd : Preprocessed G₁ G₂) (ch : Challenges) (P : Proof G₁) : Prop :=
  let l := P.values.wires.l
  let r := P.values.wires.r
  let o := P.values.wires.o
  let z := P.values.accumulator
  P.values.quotient * (ch.zeta ^ pd.domain.size - 1) =
    pd.selectors.ql.eval ch.zeta * l + pd.selectors.qr.eval ch.zeta * r +
      pd.selectors.qm.eval ch.zeta * l * r + pd.selectors.qo.eval ch.zeta * o +
      pd.selectors.qk.eval ch.zeta +
    ch.alpha * l *
      (P.zNext * ((l + pd.sigmas.l.eval ch.zeta + ch.gamma) *
          (r + pd.sigmas.r.eval ch.zeta + ch.gamma) * (o + pd.sigmas.o.eval ch.zeta + ch.gamma)) -
        z * ((l + ch.zeta + ch.gamma) * (r + pd.shifters.r * ch.zeta + ch.gamma) *
          (o + pd.shifters.o * ch.zeta + ch.gamma)))

/-- The identity of a proof, in terms of the polynomials behind its values. -/
theorem identityHolds_iff {ch : Challenges} {P : Proof G₁} {t : Trace} {q : Poly}
    (hvalues : P.values = ⟨t.wires.map (·.eval ch.zeta), q.eval ch.zeta, t.z.eval ch.zeta⟩)
    (hnext : P.zNext = t.zNext.eval ch.zeta) :
    pd.IdentityHolds ch P ↔ q.eval ch.zeta * (ch.zeta ^ pd.domain.size - 1) =
      (pd.combined t ch.gamma ch.alpha).eval ch.zeta := by
  rw [IdentityHolds, hvalues, hnext, eval_combined]
  refine Eq.congr_right ?_
  simp only [gateValue, orderingValue, rowFactor, Shifters.rowLabels, Shifters.columns,
    Selectors.map, Wires.map]
  ring

end Preprocessed

theorem Domain.tableFits (d : Domain) : TableFits d.size scalarWidth := by
  have hfits : TableFits (2 ^ maxLog) scalarWidth := by decide
  exact hfits.of_le d.size_le_two_pow

namespace Circuit.Describes

open Preprocessed

section

variable {G₁ G₂ : Type} {c : Circuit} {scheme : Scheme G₁ G₂} {pd : Preprocessed G₁ G₂}
  (h : c.Describes scheme pd) {w : List Scalar} (hlen : c.varCount.toNat ≤ w.length)
  {gamma : Scalar}
include h

theorem size_le : c.size ≤ pd.domain.size := by
  rw [h.domainSize]
  exact c.size_le_domainSize

/-- The parameters reach four times the domain. -/
theorem capacity_le : cosetCount * pd.domain.size ≤ pd.scheme.g1.length := by
  rw [h.domainSize, h.scheme]
  exact h.capacity

theorem size_lt_length : pd.domain.size < pd.scheme.g1.length := by
  have hcapacity := h.capacity_le
  have hpos := pd.domain.size_pos
  rw [cosetCount] at hcapacity
  omega

/-- Only the number of rows of a circuit has to fit. -/
theorem requireFit_of_domainSize {c' : Circuit} (hsize : c'.domainSize = pd.domain.size) :
    pd.requireFit c' = .ok () := by
  have hcapacity := h.capacity_le
  rw [requireFit, if_neg (not_or.2 ⟨not_not.2 hsize, not_not.2 h.refines.size⟩), if_neg]
  rw [Scheme.maxDegree]
  omega

/-- The circuit that was preprocessed passes the size check. -/
theorem requireFit_eq_ok : pd.requireFit c = .ok () :=
  h.requireFit_of_domainSize h.domainSize.symm

include hlen in
/-- A long enough assignment has values for the wires of all gates. -/
theorem assigned : c.Assigned w := by
  intro g hg v hv
  have hlt := h.wired v (mem_wiring hg hv _)
  rw [UInt64.lt_iff_toNat_lt] at hlt
  omega

include hlen in
/-- Some position carries a variable, so a long enough assignment is not empty. -/
theorem ne_nil : w ≠ [] := by
  have hpositions := h.wiring_length
  have hpos := pd.domain.size_pos
  obtain ⟨v, hv⟩ := List.exists_mem_of_length_pos (l := c.wiring pd.domain.size) (by omega)
  rw [h.domainSize] at hv
  have hlt := h.wired v hv
  rw [UInt64.lt_iff_toNat_lt] at hlt
  exact List.ne_nil_of_length_pos (by omega)

include hlen in
/-- A satisfying length and assigned rows give the laid out columns. -/
theorem wireColumns_eq_ok :
    c.wireColumns w pd.domain.size = .ok (c.layout w pd.domain.size) :=
  wireColumns_eq_ok_iff.2
    ⟨h.ne_nil hlen, ⟨hlen, h.size_le⟩, pd.domain.tableFits, h.assigned hlen, rfl⟩

/-- The accumulator of an assignment closes, so the recurrence holds on the last row too. -/
theorem mismatch_layout
    (hden : ∀ i < pd.domain.size, pd.denominator (c.layout w pd.domain.size) gamma i ≠ 0) {i : Nat}
    (hi : i < pd.domain.size) :
    pd.mismatch gamma (c.layout w pd.domain.size)
      (pd.accumulatedColumn (c.layout w pd.domain.size) gamma) i = 0 := by
  have hone := h.accumulated_size_of_respects (layout_hasLength h.size_le w) (h.respects_layout w)
    hden
  rw [mismatch, accumulatedColumn_recurrence hone (hden i hi) hi, sub_self]

end

section

variable {G₁ G₂ : Type} [SMul Scalar G₁] [Zero G₁] [Add G₁] {c : Circuit} {scheme : Scheme G₁ G₂}
  {pd : Preprocessed G₁ G₂} (h : c.Describes scheme pd) {w : List Scalar}
  (hlen : c.varCount.toNat ≤ w.length) {gamma : Scalar}
include h

/-- Whatever the prover commits to is within the parameters. -/
theorem commit_isOk {p : Poly} (hne : p.coefs ≠ [])
    (hle : p.coefs.length ≤ cosetCount * pd.domain.size) : ∃ C, pd.commit p = .ok C := by
  obtain ⟨C, hC⟩ := Scheme.commit_isOk hne (hle.trans h.capacity_le)
  exact ⟨C, commit_eq_ok_iff.2 hC⟩

/-- The wire round succeeds on columns of the domain's size. -/
theorem wireRound_isOk {c' : Circuit} {columns : Wires (List Scalar)}
    (hcolumns : c'.wireColumns w pd.domain.size = .ok columns)
    (hw : columns.HasLength pd.domain.size) : ∃ polys Cs,
      columns.mapM pd.domain.interpolate = .ok polys ∧
        pd.wireRound c' w = .ok ⟨columns, polys, Cs⟩ := by
  obtain ⟨polys, Cs, hpolys, hCs⟩ := wires_isOk hw h.size_lt_length.le
  obtain ⟨hl, hr, ho⟩ := Wires.mapM_eq_ok_iff.1 hCs
  have hcommit : polys.mapM pd.commit = .ok Cs :=
    Wires.mapM_eq_ok_iff.2 ⟨commit_eq_ok_iff.2 hl, commit_eq_ok_iff.2 hr, commit_eq_ok_iff.2 ho⟩
  refine ⟨polys, Cs, hpolys, ?_⟩
  simp only [wireRound, bind_eq_ok_iff, lift_eq_ok_iff, pure_eq_ok_iff]
  exact ⟨_, hcolumns, polys, hpolys, Cs, hcommit, rfl⟩

/-- The accumulator round succeeds without a vanishing denominator. -/
theorem accumulatorRound_isOk {columns : Wires (List Scalar)}
    (hw : columns.HasLength pd.domain.size)
    (hden : ∀ i < pd.domain.size, pd.denominator columns gamma i ≠ 0) :
    ∃ p next C, pd.accumulatorRound columns gamma = .ok ⟨p, next, C⟩ ∧
      pd.domain.interpolate (pd.accumulatedColumn columns gamma) = .ok p ∧
      pd.domain.interpolate (rotated (pd.accumulatedColumn columns gamma)) = .ok next := by
  have hz := pd.accumulatedColumn_length columns gamma
  obtain ⟨p, C, hp, hC⟩ := interpolate_commit_isOk hz h.size_lt_length.le
  obtain ⟨next, hnext⟩ := Domain.interpolate_isOk ((rotated_length _).trans hz)
  refine ⟨p, next, C, ?_, hp, hnext⟩
  simp only [accumulatorRound, bind_eq_ok_iff, lift_eq_ok_iff, pure_eq_ok_iff]
  exact ⟨_, (accumulator_eq_ok_iff h.labelLength).2 ⟨hw, hden, rfl⟩, p, hp, next, hnext, C,
    commit_eq_ok_iff.2 hC, rfl⟩

/-- The prover answers for the columns of any circuit of the same size, and the values in its proof
are those of their quotient and their accumulator. -/
theorem exists_run_of_wireColumns [Encoded G₁] {c' : Circuit} {columns : Wires (List Scalar)}
    (hfit : pd.requireFit c' = .ok ())
    (hcolumns : c'.wireColumns w pd.domain.size = .ok columns)
    (hw : columns.HasLength pd.domain.size)
    (hden : ∀ i < pd.domain.size, pd.denominator columns gamma i ≠ 0) (alpha : Scalar) :
    ∃ t q, Trace.Interpolates t pd.domain columns (pd.accumulatedColumn columns gamma) ∧
      pd.quotientPoly t.wires t.z t.zNext gamma alpha = .ok q ∧
      ∀ zeta v, ∃ P, pd.proveWith c' w ⟨zeta, v, gamma, alpha⟩ = .ok P ∧
        (pd.IdentityHolds ⟨zeta, v, gamma, alpha⟩ P ↔
          q.eval zeta * (zeta ^ pd.domain.size - 1) =
            (pd.combined t gamma alpha).eval zeta) := by
  obtain ⟨polys, Cs, hpolys, hwires⟩ := h.wireRound_isOk hcolumns hw
  obtain ⟨p, next, C, haccumulator, hp, hnext⟩ := h.accumulatorRound_isOk hw hden
  let t : Trace := ⟨polys, p, next⟩
  have ht : t.Interpolates pd.domain columns _ := ⟨hpolys, hnext, hp⟩
  obtain ⟨q, hq, hqlen, hqne, -⟩ := h.quotientPoly_isOk ht.fits gamma alpha
  obtain ⟨Q, hQ⟩ := h.commit_isOk hqne hqlen
  refine ⟨t, q, ht, hq, ?_⟩
  intro zeta v
  have hpos : 0 < pd.scheme.g1.length := (Nat.zero_le _).trans_lt h.size_lt_length
  have hsizes : ∀ r ∈ (⟨polys, q, p⟩ : Committed Poly).toList,
      r.coefs.length ≤ pd.scheme.g1.length := by
    have hrows := h.size_lt_length.le
    obtain ⟨hl, hr, ho⟩ := Wires.forall_mem_toList.1 ht.fits.wires
    simp only [Committed.toList, Wires.toList, List.forall_mem_append, List.forall_mem_cons,
      List.not_mem_nil, false_imp_iff, implies_true, and_true]
    exact ⟨⟨hl.trans hrows, hr.trans hrows, ho.trans hrows⟩, hqlen.trans h.capacity_le,
      ht.fits.z.trans hrows⟩
  have hsome : (⟨polys, q, p⟩ : Committed Poly).toList ≠ [] := by simp [Committed.toList]
  obtain ⟨opening, hopening⟩ := Scheme.batchOpenAt_isOk hsome hpos hsizes zeta v
  obtain ⟨-, -, hpne, -⟩ := Domain.interpolate_eq_ok hp
  obtain ⟨openingNext, hopeningNext⟩ := Scheme.openAt_isOk (s := pd.scheme) hpne
    (ht.fits.z.trans h.size_lt_length.le) (zeta * pd.domain.generator)
  refine ⟨_, proveWith_eq_ok hfit hwires haccumulator hq hQ hopening hopeningNext, ?_⟩
  exact identityHolds_iff rfl (ht.eval_zNext zeta).symm

include hlen in
/-- The run for an assignment of the circuit itself. -/
theorem exists_run [Encoded G₁]
    (hden : ∀ i < pd.domain.size, pd.denominator (c.layout w pd.domain.size) gamma i ≠ 0)
    (alpha : Scalar) :
    ∃ t q, Trace.Interpolates t pd.domain (c.layout w pd.domain.size)
        (pd.accumulatedColumn (c.layout w pd.domain.size) gamma) ∧
      pd.quotientPoly t.wires t.z t.zNext gamma alpha = .ok q ∧
      ∀ zeta v, ∃ P, pd.proveWith c w ⟨zeta, v, gamma, alpha⟩ = .ok P ∧
        (pd.IdentityHolds ⟨zeta, v, gamma, alpha⟩ P ↔
          q.eval zeta * (zeta ^ pd.domain.size - 1) =
            (pd.combined t gamma alpha).eval zeta) :=
  h.exists_run_of_wireColumns h.requireFit_eq_ok (h.wireColumns_eq_ok hlen)
    (layout_hasLength h.size_le w) hden alpha

end

end Circuit.Describes

end PlonkKzg
