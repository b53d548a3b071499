import PlonkKzg.Proofs.Prover.Accumulator

/-!
# The accumulator as prefix products

The accumulator inverts all denominators by way of one inversion and multiplies its quotients up as it
goes. What comes out at a row is the product of the quotients of the rows before it, each denominator
inverted on its own; and nothing comes out if there is a column of another length, or a row, the
last one included, whose denominator is zero.

* `Preprocessed.numerator_eq_mul`, `Preprocessed.denominator_eq_mul` — the factors of a row, wire by
  wire;
* `Preprocessed.accumulator_eq_badArguments_iff`, `Preprocessed.accumulator_eq_divisionByZero_iff` —
  the two refusals;
* `Preprocessed.accumulator_eq_ok` — the products;
* `Circuit.accumulator_prefixProducts` — all of this for the public data of a circuit.
-/

namespace PlonkKzg

namespace Preprocessed

variable {G₁ G₂ : Type} {pd : Preprocessed G₁ G₂} {wires : Wires (List Scalar)} {gamma : Scalar}

/-! ### The factors of a row -/

/-- The numerator of a row, written out over the three columns. -/
theorem numerator_eq_mul (k : Nat) : pd.numerator wires gamma k =
    (wires.l.getD k 0 + pd.domain.generator ^ k + gamma) *
      (wires.r.getD k 0 + pd.shifters.r * pd.domain.generator ^ k + gamma) *
      (wires.o.getD k 0 + pd.shifters.o * pd.domain.generator ^ k + gamma) := by
  simp only [numerator, rowFactor, Shifters.rowLabels, Shifters.columns, Wires.atRow, Wires.map,
    one_mul, add_right_comm]

theorem denominator_eq_mul (k : Nat) : pd.denominator wires gamma k =
    (wires.l.getD k 0 + pd.labels.l.getD k 0 + gamma) *
      (wires.r.getD k 0 + pd.labels.r.getD k 0 + gamma) *
      (wires.o.getD k 0 + pd.labels.o.getD k 0 + gamma) := by
  simp only [denominator, rowFactor, Wires.atRow, Wires.map, add_right_comm]

/-! ### Refusals -/

theorem factors_eq_error (h : ¬wires.HasLength pd.domain.size) :
    pd.factors wires gamma = .error .badArguments :=
  if_neg fun hlen => h (Wires.hasLength_iff.2 (List.forall_mem_append.1 hlen).1)

theorem accumulator_of_not_hasLength (h : ¬wires.HasLength pd.domain.size) :
    pd.accumulator wires gamma = .error .badArguments := by
  rw [accumulator, factors_eq_error h]
  rfl

section

variable (hl : pd.labels.HasLength pd.domain.size)
include hl

/-- With nonzero denominators the accumulator is the column of prefix products. -/
theorem accumulator_eq_ok (hw : wires.HasLength pd.domain.size)
    (hden : ∀ i < pd.domain.size, pd.denominator wires gamma i ≠ 0) :
    pd.accumulator wires gamma = .ok (pd.accumulatedColumn wires gamma) :=
  (accumulator_eq_ok_iff hl).2 ⟨hw, hden, rfl⟩

/-- Columns of a wrong length are the only bad arguments. -/
theorem accumulator_eq_badArguments_iff : pd.accumulator wires gamma = .error .badArguments ↔
    ∃ column ∈ wires.toList, column.length ≠ pd.domain.size := by
  have hwrong : ¬wires.HasLength pd.domain.size ↔
      ∃ column ∈ wires.toList, column.length ≠ pd.domain.size := by
    simp only [Wires.hasLength_iff, not_forall, exists_prop, ne_eq]
  rw [← hwrong]
  refine ⟨fun h hw => ?_, accumulator_of_not_hasLength⟩
  by_cases hzero : ∃ i < pd.domain.size, pd.denominator wires gamma i = 0
  · obtain ⟨i, hi, hden⟩ := hzero
    rw [accumulator_eq_error hl hw hi hden] at h
    cases h
  · rw [accumulator_eq_ok hl hw fun i hi hden => hzero ⟨i, hi, hden⟩] at h
    cases h

/-- A zero denominator in any row, the last one included, is a division by zero. -/
theorem accumulator_eq_divisionByZero_iff (hw : wires.HasLength pd.domain.size) :
    pd.accumulator wires gamma = .error .divisionByZero ↔
      ∃ i < pd.domain.size, pd.denominator wires gamma i = 0 := by
  constructor
  · intro h
    by_contra hzero
    rw [accumulator_eq_ok hl hw fun i hi hden => hzero ⟨i, hi, hden⟩] at h
    cases h
  · rintro ⟨i, hi, hzero⟩
    exact accumulator_eq_error hl hw hi hzero

end

/-- Entry `i` is the product of the quotients of the rows before it. -/
theorem getElem?_accumulatedColumn {i : Nat} (hi : i < pd.domain.size) :
    (pd.accumulatedColumn wires gamma)[i]? =
      some (∏ k ∈ Finset.range i,
        pd.numerator wires gamma k * (pd.denominator wires gamma k)⁻¹) := by
  rw [accumulatedColumn, List.getElem?_map, List.getElem?_range hi]
  rfl

end Preprocessed

namespace Circuit

/-- Whatever three columns and challenge are given, the accumulator refuses columns of another length,
then a row with the denominator zero, and otherwise holds the products of the quotients so far. -/
theorem accumulator_prefixProducts {G₁ G₂ : Type} [SMul Scalar G₁] [Zero G₁] [Add G₁] {c : Circuit}
    {scheme : Scheme G₁ G₂} {pd : Preprocessed G₁ G₂} (hpd : c.preprocess scheme = .ok pd)
    (wires : Wires (List Scalar)) (gamma : Scalar) :
    (∀ k, pd.numerator wires gamma k =
      (wires.l.getD k 0 + pd.domain.generator ^ k + gamma) *
        (wires.r.getD k 0 + pd.shifters.r * pd.domain.generator ^ k + gamma) *
        (wires.o.getD k 0 + pd.shifters.o * pd.domain.generator ^ k + gamma)) ∧
    (∀ k, pd.denominator wires gamma k =
      (wires.l.getD k 0 + pd.labels.l.getD k 0 + gamma) *
        (wires.r.getD k 0 + pd.labels.r.getD k 0 + gamma) *
        (wires.o.getD k 0 + pd.labels.o.getD k 0 + gamma)) ∧
    (pd.accumulator wires gamma = .error .badArguments ↔
      ∃ column ∈ wires.toList, column.length ≠ pd.domain.size) ∧
    (wires.HasLength pd.domain.size →
      (pd.accumulator wires gamma = .error .divisionByZero ↔
        ∃ i < pd.domain.size, pd.denominator wires gamma i = 0) ∧
      ((∀ i < pd.domain.size, pd.denominator wires gamma i ≠ 0) →
        ∃ z, pd.accumulator wires gamma = .ok z ∧ z.length = pd.domain.size ∧
          ∀ i < pd.domain.size, z[i]? = some (∏ k ∈ Finset.range i,
            pd.numerator wires gamma k * (pd.denominator wires gamma k)⁻¹))) := by
  have hl := (describes_of_preprocess hpd).labelLength
  refine ⟨Preprocessed.numerator_eq_mul, Preprocessed.denominator_eq_mul,
    Preprocessed.accumulator_eq_badArguments_iff hl, fun hw =>
      ⟨Preprocessed.accumulator_eq_divisionByZero_iff hl hw, fun hden => ?_⟩⟩
  exact ⟨_, Preprocessed.accumulator_eq_ok hl hw hden, pd.accumulatedColumn_length wires gamma,
    fun i hi => Preprocessed.getElem?_accumulatedColumn hi⟩

/-- The denominators of the circuit with one gate: the labels of the next positions are those of the
next columns. -/
theorem bit_denominators : ∃ pd : Preprocessed G1 G2, bit.preprocess (.ofSecret 7 1) = .ok pd ∧
    pd.domain.size = 2 ∧ ∀ (wires : Wires (List Scalar)) (gamma : Scalar),
      pd.denominator wires gamma 0 =
        rowFactor gamma (wires.atRow 0) ⟨.ofNat 5, .ofNat 25, 1⟩ ∧
      pd.denominator wires gamma 1 =
        rowFactor gamma (wires.atRow 1) ⟨-.ofNat 5, -.ofNat 25, -1⟩ := by
  obtain ⟨pd, hpd, hsize, hperm, hlabel⟩ := preprocess_bit
  have h := describes_of_preprocess hpd
  refine ⟨pd, hpd, hsize, fun wires gamma => ⟨?_, ?_⟩⟩
  · rw [Preprocessed.denominator, h.labels_atRow (by omega)]
    simp only [hlabel, hperm, hsize, Wires.map]
    rfl
  · rw [Preprocessed.denominator, h.labels_atRow (by omega)]
    simp only [hlabel, hperm, hsize, Wires.map]
    rfl

/-- The value three on all wires of the gate. With the challenge five the last row, and no other, has
the denominator zero. -/
theorem bit_accumulator_prefixProducts :
    ∃ (pd : Preprocessed G1 G2) (wires : Wires (List Scalar)),
      bit.preprocess (.ofSecret 7 1) = .ok pd ∧ pd.domain.size = 2 ∧
      wires = bitColumns (.ofNat 3) (.ofNat 3) (.ofNat 3) ∧
      (∃ z, pd.accumulator wires (.ofNat 2) = .ok z ∧ z.length = pd.domain.size ∧
        ∀ i < pd.domain.size, z[i]? = some (∏ k ∈ Finset.range i,
          pd.numerator wires (.ofNat 2) k * (pd.denominator wires (.ofNat 2) k)⁻¹)) ∧
      pd.denominator wires (.ofNat 5) 0 ≠ 0 ∧ pd.denominator wires (.ofNat 5) 1 = 0 ∧
      pd.accumulator wires (.ofNat 5) = .error .divisionByZero ∧
      pd.accumulator ⟨[1, 0], [1], [1, 0]⟩ (.ofNat 2) = .error .badArguments := by
  obtain ⟨pd, hpd, hsize, hrows⟩ := bit_denominators
  have hw := bitColumns_hasLength hsize (.ofNat 3) (.ofNat 3) (.ofNat 3)
  have hden : ∀ i < pd.domain.size,
      pd.denominator (bitColumns (.ofNat 3) (.ofNat 3) (.ofNat 3)) (.ofNat 2) i ≠ 0 := by
    intro i hi
    rw [hsize] at hi
    interval_cases i
    · rw [(hrows _ _).1]
      decide
    · rw [(hrows _ _).2]
      decide
  have hfirst : pd.denominator (bitColumns (.ofNat 3) (.ofNat 3) (.ofNat 3)) (.ofNat 5) 0 ≠ 0 := by
    rw [(hrows _ _).1]
    decide
  have hlast : pd.denominator (bitColumns (.ofNat 3) (.ofNat 3) (.ofNat 3)) (.ofNat 5) 1 = 0 := by
    rw [(hrows _ _).2]
    decide
  have hshort : ∃ column ∈ (⟨[1, 0], [1], [1, 0]⟩ : Wires (List Scalar)).toList,
      column.length ≠ pd.domain.size := by
    refine ⟨[1], by simp [Wires.toList], ?_⟩
    rw [hsize]
    decide
  obtain ⟨-, -, -, hproducts⟩ := accumulator_prefixProducts hpd
    (bitColumns (.ofNat 3) (.ofNat 3) (.ofNat 3)) (.ofNat 2)
  obtain ⟨-, -, -, hrefusal⟩ := accumulator_prefixProducts hpd
    (bitColumns (.ofNat 3) (.ofNat 3) (.ofNat 3)) (.ofNat 5)
  exact ⟨pd, _, hpd, hsize, rfl, (hproducts hw).2 hden, hfirst, hlast,
    (hrefusal hw).1.2 ⟨1, by omega, hlast⟩,
    (accumulator_prefixProducts hpd _ (.ofNat 2)).2.2.1.2 hshort⟩

end Circuit

end PlonkKzg
