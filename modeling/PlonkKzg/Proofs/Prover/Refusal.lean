import PlonkKzg.Proofs.Prover.Run

/-!
# What the prover refuses

With public data that come from preprocessing, the prover looks at the number of rows, at the length
of the assignment, at the wires and at the denominators of the accumulator, in this order, and
refuses whatever fails first. Every later step succeeds, for whichever circuit and assignment it
reaches.

* `Circuit.wireColumns_of_short`, `Circuit.wireColumns_of_not_assigned` — how an assignment can fail
  to have wire columns;
* `Preprocessed.refusal` — the error that the prover should give, if any;
* `Preprocessed.proveWith_of_requireFit`, `Preprocessed.proveWith_of_wireRound`,
  `Preprocessed.proveWith_of_accumulatorRound` — the error of a round is that of the prover;
* `Circuit.proveWith_refusal` — the prover gives that error, or else a proof.
-/

namespace PlonkKzg

/-! ### Assignments without wire columns -/

namespace Circuit

variable {c : Circuit} {w : List Scalar} {n : Nat}

/-- One index outside the assignment makes the rows fail. -/
theorem mapM_wireValues_eq_error (h : ¬c.Assigned w) :
    c.rows.mapM (·.wireValues w) = .error .invalidWitness := by
  cases hvalues : c.rows.mapM (·.wireValues w) with
  | ok values => exact absurd (mapM_wireValues_eq_ok_iff.1 hvalues).1 h
  | error e =>
      -- Whichever gate it is, one of its variables was looked up in vain.
      obtain ⟨g, -, hg⟩ := exists_eq_error_of_mapM_eq_error hvalues
      obtain ⟨v, -, hv⟩ := Wires.exists_eq_error_of_mapM_eq_error hg
      rw [lookup_eq_error hv]

/-- An assignment without values, without enough of them, or for fewer rows than there are gates. -/
theorem wireColumns_of_short (h : w = [] ∨ w.length < c.varCount.toNat ∨ n < c.size) :
    c.wireColumns w n = .error (.error .badArguments) := by
  cases w with
  | nil => rfl
  | cons a w =>
      have hshort : (a :: w).length < c.varCount.toNat ∨ n < c.size :=
        h.resolve_left (List.cons_ne_nil a w)
      simp only [wireColumns, List.head?_cons, if_pos hshort]
      rfl

/-- A gate that names a variable beyond the assignment. -/
theorem wireColumns_of_not_assigned (hw : w ≠ []) (hlen : c.varCount.toNat ≤ w.length)
    (hsize : c.size ≤ n) (hfits : TableFits n scalarWidth) (h : ¬c.Assigned w) :
    c.wireColumns w n = .error (.error .invalidWitness) := by
  obtain ⟨a, w, rfl⟩ := List.exists_cons_of_ne_nil hw
  have hlong : ¬((a :: w).length < c.varCount.toNat ∨ n < c.size) := by omega
  simp only [wireColumns, List.head?_cons, if_neg hlong, requireTable_eq_ok_iff.2 hfits,
    mapM_wireValues_eq_error h]
  rfl

/-- Otherwise there are all columns. -/
theorem wireColumns_of_assigned (hw : w ≠ []) (hlen : c.varCount.toNat ≤ w.length)
    (hsize : c.size ≤ n) (hfits : TableFits n scalarWidth) (h : c.Assigned w) :
    c.wireColumns w n = .ok (c.layout w n) :=
  wireColumns_eq_ok_iff.2 ⟨hw, ⟨hlen, hsize⟩, hfits, h, rfl⟩

end Circuit

namespace Preprocessed

variable {G₁ G₂ : Type}

/-! ### The first round that fails -/

/-- What is wrong with the arguments of the prover: a circuit of another size or an assignment that
is too short; a gate that names a variable beyond the assignment; a row with a zero denominator. -/
def refusal (pd : Preprocessed G₁ G₂) (c : Circuit) (w : List Scalar) (gamma : Scalar) :
    Option Error :=
  if c.domainSize ≠ pd.domain.size ∨ w = [] ∨ w.length < c.varCount.toNat then some .badArguments
  else if ¬c.Assigned w then some .invalidWitness
  else if ∃ i < pd.domain.size, rowFactor gamma (c.rowValues w i) (pd.labels.atRow i) = 0 then
    some .divisionByZero
  else none

variable {pd : Preprocessed G₁ G₂} {c : Circuit} {w : List Scalar} {ch : Challenges}

/-- The predicted refusals are three. -/
theorem refusal_eq_some {gamma : Scalar} {e : Error} (h : pd.refusal c w gamma = some e) :
    e = .badArguments ∨ e = .invalidWitness ∨ e = .divisionByZero := by
  unfold refusal at h
  split_ifs at h <;> cases h
  · exact .inl rfl
  · exact .inr (.inr rfl)
  · exact .inr (.inl rfl)

theorem requireFit_eq_error (h : c.domainSize ≠ pd.domain.size) :
    pd.requireFit c = .error .badArguments := if_pos (.inl h)

variable [SMul Scalar G₁] [Zero G₁] [Add G₁]

theorem wireRound_eq_error {e : Fault} (h : c.wireColumns w pd.domain.size = .error e) :
    pd.wireRound c w = .error e :=
  bind_eq_error_iff.2 (.inl h)

theorem accumulatorRound_eq_error {columns : Wires (List Scalar)} {gamma : Scalar} {e : Error}
    (h : pd.accumulator columns gamma = .error e) :
    pd.accumulatorRound columns gamma = .error (.error e) :=
  bind_eq_error_iff.2 (.inl (lift_eq_error_iff.2 h))

section

variable [Encoded G₁]

/-- A failing first check is the outcome of the run. -/
theorem proveWith_of_requireFit {e : Error} (h : pd.requireFit c = .error e) :
    pd.proveWith c w ch = .error (.error e) := by
  rw [proveWith, run'_eq_error_iff, proveFrom]
  exact run_bind_eq_error_iff.2 (.inl (run_lift_eq_error_iff.2 (lift_eq_error_iff.2 h)))

theorem proveWith_of_wireRound {e : Fault} (hfit : pd.requireFit c = .ok ())
    (h : pd.wireRound c w = .error e) : pd.proveWith c w ch = .error e := by
  rw [proveWith, run'_eq_error_iff, proveFrom]
  refine run_bind_eq_error_iff.2 (.inr ⟨(), (), ?_, ?_⟩)
  · exact run_lift_eq_ok_iff.2 ⟨lift_eq_ok_iff.2 hfit, rfl⟩
  · exact run_bind_eq_error_iff.2 (.inl (run_lift_eq_error_iff.2 h))

theorem proveWith_of_accumulatorRound {wires : WireRound G₁} {e : Fault}
    (hfit : pd.requireFit c = .ok ()) (hwires : pd.wireRound c w = .ok wires)
    (h : pd.accumulatorRound wires.columns ch.gamma = .error e) :
    pd.proveWith c w ch = .error e := by
  rw [proveWith, run'_eq_error_iff, proveFrom]
  refine run_bind_eq_error_iff.2 (.inr ⟨(), (), ?_, ?_⟩)
  · exact run_lift_eq_ok_iff.2 ⟨lift_eq_ok_iff.2 hfit, rfl⟩
  refine run_bind_eq_error_iff.2 (.inr ⟨wires, (), ?_, ?_⟩)
  · exact run_lift_eq_ok_iff.2 ⟨hwires, rfl⟩
  refine run_bind_eq_error_iff.2 (.inr ⟨ch.gamma, (), rfl, ?_⟩)
  exact run_bind_eq_error_iff.2 (.inl (run_lift_eq_error_iff.2 h))

end

end Preprocessed

/-! ### The prover after preprocessing -/

namespace Circuit

open Preprocessed

variable {G₁ G₂ : Type} [SMul Scalar G₁] [Zero G₁] [Add G₁] [Encoded G₁] {c₀ c : Circuit}
  {scheme : Scheme G₁ G₂} {pd : Preprocessed G₁ G₂} {w : List Scalar} {ch : Challenges}

namespace Describes

variable (h : c₀.Describes scheme pd)
include h

/-- A circuit of another size or a short assignment is refused first. -/
theorem proveWith_badArguments
    (hargs : c.domainSize ≠ pd.domain.size ∨ w = [] ∨ w.length < c.varCount.toNat) :
    pd.proveWith c w ch = .error (.error .badArguments) := by
  by_cases hsize : c.domainSize = pd.domain.size
  · have hshort : w = [] ∨ w.length < c.varCount.toNat := hargs.resolve_left (not_not.2 hsize)
    refine proveWith_of_wireRound (h.requireFit_of_domainSize hsize) ?_
    exact wireRound_eq_error (wireColumns_of_short (hshort.imp_right .inl))
  · exact proveWith_of_requireFit (requireFit_eq_error hsize)

section

variable (hsize : c.domainSize = pd.domain.size) (hw : w ≠ [])
  (hlen : c.varCount.toNat ≤ w.length)
include hsize hw hlen

/-- With the arguments in order, an index outside the assignment comes next. -/
theorem proveWith_invalidWitness (hwires : ¬c.Assigned w) :
    pd.proveWith c w ch = .error (.error .invalidWitness) := by
  have hrows : c.size ≤ pd.domain.size := hsize ▸ c.size_le_domainSize
  refine proveWith_of_wireRound (h.requireFit_of_domainSize hsize) (wireRound_eq_error ?_)
  exact wireColumns_of_not_assigned hw hlen hrows pd.domain.tableFits hwires

variable (hwires : c.Assigned w)
include hwires

/-- A vanishing denominator comes last. -/
theorem proveWith_divisionByZero {i : Nat} (hi : i < pd.domain.size)
    (hzero : rowFactor ch.gamma (c.rowValues w i) (pd.labels.atRow i) = 0) :
    pd.proveWith c w ch = .error (.error .divisionByZero) := by
  have hrows : c.size ≤ pd.domain.size := hsize ▸ c.size_le_domainSize
  have hcolumns := wireColumns_of_assigned hw hlen hrows pd.domain.tableFits hwires
  have hlength := layout_hasLength hrows w
  obtain ⟨polys, Cs, -, hround⟩ := h.wireRound_isOk hcolumns hlength
  rw [← denominator_layout c w hi] at hzero
  exact proveWith_of_accumulatorRound (h.requireFit_of_domainSize hsize) hround
    (accumulatorRound_eq_error (accumulator_eq_error h.labelLength hlength hi hzero))

/-- With none of the three there is a proof. -/
theorem proveWith_isOk (hden : ∀ i < pd.domain.size,
    rowFactor ch.gamma (c.rowValues w i) (pd.labels.atRow i) ≠ 0) :
    ∃ P, pd.proveWith c w ch = .ok P := by
  have hrows : c.size ≤ pd.domain.size := hsize ▸ c.size_le_domainSize
  have hcolumns := wireColumns_of_assigned hw hlen hrows pd.domain.tableFits hwires
  have hne : ∀ i < pd.domain.size,
      pd.denominator (c.layout w pd.domain.size) ch.gamma i ≠ 0 := by
    intro i hi
    rw [denominator_layout c w hi]
    exact hden i hi
  obtain ⟨t, q, -, -, hrun⟩ := h.exists_run_of_wireColumns (h.requireFit_of_domainSize hsize)
    hcolumns (layout_hasLength hrows w) hne ch.alpha
  obtain ⟨P, hP, -⟩ := hrun ch.zeta ch.bundle
  exact ⟨P, hP⟩

end

/-- The prover gives the error that its arguments call for, or they call for none and it gives a
proof. -/
theorem proveWith_cases (c : Circuit) (w : List Scalar) (ch : Challenges) :
    (∃ e, pd.refusal c w ch.gamma = some e ∧ pd.proveWith c w ch = .error (.error e)) ∨
      (pd.refusal c w ch.gamma = none ∧ ∃ P, pd.proveWith c w ch = .ok P) := by
  by_cases hargs : c.domainSize ≠ pd.domain.size ∨ w = [] ∨ w.length < c.varCount.toNat
  · exact .inl ⟨_, if_pos hargs, h.proveWith_badArguments hargs⟩
  have hfit : c.domainSize = pd.domain.size ∧ w ≠ [] ∧ c.varCount.toNat ≤ w.length := by
    simpa only [not_or, not_not, not_lt, ne_eq] using hargs
  obtain ⟨hsize, hw, hlen⟩ := hfit
  by_cases hwires : c.Assigned w
  · by_cases hden : ∃ i < pd.domain.size,
        rowFactor ch.gamma (c.rowValues w i) (pd.labels.atRow i) = 0
    · obtain ⟨i, hi, hzero⟩ := hden
      refine .inl ⟨.divisionByZero, ?_, h.proveWith_divisionByZero hsize hw hlen hwires hi hzero⟩
      rw [refusal, if_neg hargs, if_neg (not_not.2 hwires), if_pos ⟨i, hi, hzero⟩]
    · refine .inr ⟨?_, h.proveWith_isOk hsize hw hlen hwires fun i hi hzero =>
        hden ⟨i, hi, hzero⟩⟩
      rw [refusal, if_neg hargs, if_neg (not_not.2 hwires), if_neg hden]
  · refine .inl ⟨.invalidWitness, ?_, h.proveWith_invalidWitness hsize hw hlen hwires⟩
    rw [refusal, if_neg hargs, if_pos hwires]

end Describes

/-- The prover gives the error that its arguments call for, and a proof if they call for none. So
there is no error of the commitments, and no broken precondition. -/
theorem proveWith_refusal (hpd : c₀.preprocess scheme = .ok pd) (c : Circuit) (w : List Scalar)
    (ch : Challenges) :
    (∀ e, pd.refusal c w ch.gamma = some e → pd.proveWith c w ch = .error (.error e)) ∧
    (pd.refusal c w ch.gamma = none → ∃ P, pd.proveWith c w ch = .ok P) ∧
    ∀ e, pd.proveWith c w ch = .error e →
      e = .error .badArguments ∨ e = .error .invalidWitness ∨ e = .error .divisionByZero := by
  have h := describes_of_preprocess hpd
  obtain ⟨e₀, hrefusal, hprove⟩ | ⟨hrefusal, P, hprove⟩ := h.proveWith_cases c w ch
  · rw [hrefusal, hprove]
    refine ⟨fun e he => ?_, fun hnone => ?_, fun e he => ?_⟩
    · rw [Option.some.inj he]
    · cases hnone
    · obtain rfl := Except.error.inj he
      simpa only [Fault.error.injEq] using refusal_eq_some hrefusal
  · rw [hrefusal, hprove]
    refine ⟨fun e he => ?_, fun _ => ⟨P, rfl⟩, fun e he => ?_⟩
    · cases he
    · cases he

/-- A circuit of the same size with a wire that no assignment of two values reaches. -/
theorem bit_proveWith_refusal : ∃ pd : Preprocessed G1 G2,
    bit.preprocess (.ofSecret 7 1) = .ok pd ∧
    pd.refusal ⟨[.mul 1 1 7], [], 2⟩ [0, 1] (.ofNat 3) = some .invalidWitness ∧
    pd.proveWith ⟨[.mul 1 1 7], [], 2⟩ [0, 1] ⟨1, 1, .ofNat 3, 1⟩ =
      .error (.error .invalidWitness) := by
  obtain ⟨pd, hpd, hsize, -⟩ := preprocess_bit
  have hrefusal : pd.refusal ⟨[.mul 1 1 7], [], 2⟩ [0, 1] (.ofNat 3) = some .invalidWitness := by
    rw [refusal, hsize, if_neg (by decide), if_pos (by decide)]
  exact ⟨pd, hpd, hrefusal,
    (proveWith_refusal hpd ⟨[.mul 1 1 7], [], 2⟩ [0, 1] ⟨1, 1, .ofNat 3, 1⟩).1 _ hrefusal⟩

end Circuit

end PlonkKzg
