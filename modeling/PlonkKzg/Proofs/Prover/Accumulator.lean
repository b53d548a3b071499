import PlonkKzg.Proofs.Poly.Agreement
import PlonkKzg.Proofs.Prover.Preprocessing

/-!
# The accumulator and the copy constraints

What the accumulator of wire columns is, when it closes, and what that says about the wires.

* `Preprocessed.numerator`, `Preprocessed.denominator` — the factors of a row, with own labels and
  with those of the next positions;
* `Preprocessed.accumulator_eq_ok_iff`, `Preprocessed.accumulator_eq_error` — the running products
  of their quotients, and none with a zero denominator;
* `Preprocessed.closes_accumulator_iff` — it closes if all numerators multiply to the same as all
  denominators;
* `Preprocessed.accumulatedColumn_recurrence` — and then follows the recurrence on all rows;
* `Preprocessed.ownSums`, `Preprocessed.nextSums` — value plus label at all positions, with own
  labels and with next ones;
* `Preprocessed.Respects`, `Circuit.Describes.ownSums_eq_nextSums` — wires that respect the copy
  constraints have the same sums;
* `Circuit.Describes.accumulated_size_of_respects` — so that their accumulator closes.
-/

namespace PlonkKzg

open PlonkKzg.Poly

/-- The running products are the products of the prefixes. -/
theorem runningProducts_map_range (start : Scalar) (f : Nat → Scalar) (n : Nat) :
    runningProducts start ((List.range n).map f) =
      (List.range n).map fun i => start * ∏ k ∈ Finset.range i, f k := by
  induction n generalizing start f with
  | zero => rfl
  | succ n ih =>
      rw [List.range_succ_eq_map, List.map_cons, List.map_map, runningProducts, ih, List.map_cons,
        List.map_map]
      simp [Finset.prod_range_succ', mul_assoc, mul_comm]

theorem getD_map_range (f : Nat → Scalar) {n i : Nat} (h : i < n) (d : Scalar) :
    ((List.range n).map f).getD i d = f i := by
  rw [List.getD_eq_getElem _ _ (by simpa using h)]
  simp

namespace Preprocessed

variable {G₁ G₂ : Type} (pd : Preprocessed G₁ G₂) (wires : Wires (List Scalar)) (gamma : Scalar)

/-- The product of a row with the labels of its own positions. -/
def numerator (i : Nat) : Scalar :=
  rowFactor gamma (wires.atRow i) (pd.shifters.rowLabels (pd.domain.generator ^ i))

/-- The product of a row with the labels of the next positions. -/
def denominator (i : Nat) : Scalar := rowFactor gamma (wires.atRow i) (pd.labels.atRow i)

/-- The quotients of the rows before a row, multiplied. -/
def accumulated (i : Nat) : Scalar :=
  ∏ k ∈ Finset.range i, pd.numerator wires gamma k * (pd.denominator wires gamma k)⁻¹

def accumulatedColumn : List Scalar :=
  (List.range pd.domain.size).map (pd.accumulated wires gamma)

theorem accumulatedColumn_length :
    (pd.accumulatedColumn wires gamma).length = pd.domain.size := by
  rw [accumulatedColumn, List.length_map, List.length_range]

theorem accumulatedColumn_getD {i : Nat} (hi : i < pd.domain.size) :
    (pd.accumulatedColumn wires gamma).getD i 0 = pd.accumulated wires gamma i :=
  getD_map_range _ hi 0

variable {pd wires gamma}

/-- With columns of the domain's size both factors of every row are there. -/
theorem factors_eq_ok (hl : pd.labels.HasLength pd.domain.size)
    (hw : wires.HasLength pd.domain.size) :
    pd.factors wires gamma = .ok ⟨(List.range pd.domain.size).map (pd.numerator wires gamma),
      (List.range pd.domain.size).map (pd.denominator wires gamma)⟩ := by
  have hlen : ∀ column ∈ wires.toList ++ pd.labels.toList, column.length = pd.domain.size :=
    List.forall_mem_append.2 ⟨Wires.hasLength_iff.1 hw, Wires.hasLength_iff.1 hl⟩
  have hown : pd.domain.elements.map pd.shifters.rowLabels =
      (List.range pd.domain.size).map fun i =>
        pd.shifters.rowLabels (pd.domain.generator ^ i) := by
    rw [Domain.elements, geometric_eq_map, List.map_map]
    simp only [Function.comp_def, one_mul]
  simp only [factors, if_pos hlen, hown, Wires.rows_eq_map hw, Wires.rows_eq_map hl,
    List.zipWith_map, List.zipWith_self]
  rfl

/-- The factors exist only for columns of the domain's size. -/
theorem hasLength_of_factors_eq_ok {f : Factors} (h : pd.factors wires gamma = .ok f) :
    wires.HasLength pd.domain.size := by
  unfold factors at h
  split at h
  · rename_i hlen
    exact Wires.hasLength_iff.2 (List.forall_mem_append.1 hlen).1
  · cases h

/-- The exact conditions for an accumulator, and what it is. -/
theorem accumulator_eq_ok_iff (hl : pd.labels.HasLength pd.domain.size) {z : List Scalar} :
    pd.accumulator wires gamma = .ok z ↔ wires.HasLength pd.domain.size ∧
      (∀ i < pd.domain.size, pd.denominator wires gamma i ≠ 0) ∧
        z = pd.accumulatedColumn wires gamma := by
  constructor
  · intro h
    obtain ⟨f, hf, h⟩ := bind_eq_ok_iff.1 h
    have hw := hasLength_of_factors_eq_ok hf
    rw [factors_eq_ok hl hw, Except.ok.injEq] at hf
    subst hf
    by_cases hzero : 0 ∈ (List.range pd.domain.size).map (pd.denominator wires gamma)
    · simp [Scalar.invertAll_eq_error hzero, throw, throwThe, MonadExceptOf.throw] at h
    · simp only [Scalar.invertAll_eq_ok hzero, pure_eq_ok_iff, List.map_map, List.zipWith_map,
        List.zipWith_self] at h
      refine ⟨hw, fun i hi hden => hzero ?_, ?_⟩
      · exact List.mem_map.2 ⟨i, List.mem_range.2 hi, hden⟩
      · rw [← h, runningProducts_map_range]
        simp only [one_mul]
        rfl
  · rintro ⟨hw, hden, rfl⟩
    have hzero : 0 ∉ (List.range pd.domain.size).map (pd.denominator wires gamma) := by
      intro hmem
      obtain ⟨i, hi, hden0⟩ := List.mem_map.1 hmem
      exact hden i (List.mem_range.1 hi) hden0
    simp only [accumulator, factors_eq_ok hl hw, Scalar.invertAll_eq_ok hzero, bind, Except.bind,
      pure, Except.pure, List.map_map, List.zipWith_map, List.zipWith_self,
      runningProducts_map_range, one_mul]
    rfl

/-- With a zero denominator there is none. -/
theorem accumulator_eq_error (hl : pd.labels.HasLength pd.domain.size)
    (hw : wires.HasLength pd.domain.size) {i : Nat} (hi : i < pd.domain.size)
    (hzero : pd.denominator wires gamma i = 0) :
    pd.accumulator wires gamma = .error .divisionByZero := by
  have hmem : 0 ∈ (List.range pd.domain.size).map (pd.denominator wires gamma) :=
    List.mem_map.2 ⟨i, List.mem_range.2 hi, hzero⟩
  simp only [accumulator, factors_eq_ok hl hw, Scalar.invertAll_eq_error hmem, bind, Except.bind]
  rfl

/-- The accumulator of a row, times its denominator, is that of the row before, times its
numerator. -/
theorem accumulated_succ_mul {i : Nat} (h : pd.denominator wires gamma i ≠ 0) :
    pd.accumulated wires gamma (i + 1) * pd.denominator wires gamma i =
      pd.accumulated wires gamma i * pd.numerator wires gamma i := by
  rw [accumulated, Finset.prod_range_succ, ← accumulated, mul_assoc, mul_assoc,
    inv_mul_cancel₀ h, mul_one]

/-- Returning to one is the equality of the two whole products. -/
theorem accumulated_eq_one_iff {n : Nat} (h : ∀ i < n, pd.denominator wires gamma i ≠ 0) :
    pd.accumulated wires gamma n = 1 ↔
      ∏ i ∈ Finset.range n, pd.numerator wires gamma i =
        ∏ i ∈ Finset.range n, pd.denominator wires gamma i := by
  have hne : ∏ i ∈ Finset.range n, pd.denominator wires gamma i ≠ 0 :=
    Finset.prod_ne_zero_iff.2 fun i hi => h i (Finset.mem_range.1 hi)
  rw [accumulated, Finset.prod_mul_distrib, Finset.prod_inv_distrib, ← div_eq_mul_inv,
    div_eq_one_iff_eq hne]

/-- The accumulator closes if the quotients of all rows multiply to one. -/
theorem closes_accumulator_iff (hl : pd.labels.HasLength pd.domain.size)
    (hw : wires.HasLength pd.domain.size)
    (h : ∀ i < pd.domain.size, pd.denominator wires gamma i ≠ 0) :
    pd.closes wires (pd.accumulatedColumn wires gamma) gamma = .ok true ↔
      pd.accumulated wires gamma pd.domain.size = 1 := by
  obtain ⟨n, hn⟩ : ∃ n, pd.domain.size = n + 1 :=
    ⟨pd.domain.size - 1, by have := pd.domain.size_pos; omega⟩
  have hden : pd.denominator wires gamma n ≠ 0 := h n (by omega)
  have hlast : ∀ f : Nat → Scalar, ((List.range (n + 1)).map f).getLast? = some (f n) := by
    intro f
    rw [List.range_succ, List.map_append, List.map_singleton, List.getLast?_concat]
  have hget : ((List.range (n + 1)).map (pd.accumulated wires gamma))[n]? =
      some (pd.accumulated wires gamma n) := by simp
  simp only [closes, accumulatedColumn, factors_eq_ok hl hw, bind, Except.bind, hn,
    Nat.add_sub_cancel, hlast, hget, pure, Except.pure, Except.ok.injEq, decide_eq_true_eq]
  rw [← accumulated_succ_mul hden, mul_eq_right₀ hden]

/-- If the quotients of all rows multiply to one, then the row after the last one is the first. -/
theorem accumulatedColumn_getD_succ (hone : pd.accumulated wires gamma pd.domain.size = 1) {i : Nat}
    (hi : i < pd.domain.size) :
    (pd.accumulatedColumn wires gamma).getD ((i + 1) % pd.domain.size) 0 =
      pd.accumulated wires gamma (i + 1) := by
  rw [accumulatedColumn_getD _ _ _ (Nat.mod_lt _ pd.domain.size_pos)]
  by_cases hlt : i + 1 < pd.domain.size
  · rw [Nat.mod_eq_of_lt hlt]
  · rw [show i + 1 = pd.domain.size by omega, Nat.mod_self, hone]
    rfl

/-- Then the recurrence holds on all rows, the last one included. -/
theorem accumulatedColumn_recurrence (hone : pd.accumulated wires gamma pd.domain.size = 1)
    {i : Nat} (hden : pd.denominator wires gamma i ≠ 0) (hi : i < pd.domain.size) :
    (pd.accumulatedColumn wires gamma).getD ((i + 1) % pd.domain.size) 0 *
        pd.denominator wires gamma i =
      (pd.accumulatedColumn wires gamma).getD i 0 * pd.numerator wires gamma i := by
  rw [accumulatedColumn_getD_succ hone hi, accumulatedColumn_getD _ _ _ hi,
    accumulated_succ_mul hden]

/-! ### Sums at all positions -/

variable (pd wires)

/-- Value plus own label, at all positions. -/
def ownSums : Multiset Scalar :=
  (Multiset.range (3 * pd.domain.size)).map fun p =>
    wires.joined.getD p 0 + pd.shifters.labelOf pd.domain p

/-- Value plus the label of the next position, at all positions. -/
def nextSums : Multiset Scalar :=
  (Multiset.range (3 * pd.domain.size)).map fun p =>
    wires.joined.getD p 0 + pd.shifters.labelOf pd.domain (pd.permutation.getD p 0)

/-- Every position has the value of its next one. -/
def Respects : Prop :=
  ∀ p < 3 * pd.domain.size,
    wires.joined.getD p 0 = wires.joined.getD (pd.permutation.getD p 0) 0

theorem card_ownSums : Multiset.card (pd.ownSums wires) = 3 * pd.domain.size := by
  rw [ownSums, Multiset.card_map, Multiset.card_range]

theorem card_nextSums : Multiset.card (pd.nextSums wires) = 3 * pd.domain.size := by
  rw [nextSums, Multiset.card_map, Multiset.card_range]

def ownLabels : Wires (List Scalar) :=
  Wires.columns ((List.range pd.domain.size).map fun i =>
    pd.shifters.rowLabels (pd.domain.generator ^ i))

theorem ownLabels_hasLength : pd.ownLabels.HasLength pd.domain.size := by
  constructor <;> simp [ownLabels, Wires.columns]

theorem atRow_ownLabels {i : Nat} (hi : i < pd.domain.size) :
    pd.ownLabels.atRow i = pd.shifters.rowLabels (pd.domain.generator ^ i) := by
  have hget : ∀ f : Wires Scalar → Scalar, (((List.range pd.domain.size).map fun i =>
      pd.shifters.rowLabels (pd.domain.generator ^ i)).map f).getD i 0 =
        f (pd.shifters.rowLabels (pd.domain.generator ^ i)) := by
    intro f
    rw [List.map_map, getD_map_range _ hi]
    rfl
  exact Wires.ext (hget Wires.l) (hget Wires.r) (hget Wires.o)

/-- The own labels in one list, position by position. -/
theorem joined_ownLabels {p : Nat} (hp : p < 3 * pd.domain.size) :
    pd.ownLabels.joined.getD p 0 = pd.shifters.labelOf pd.domain p := by
  have hlen := pd.ownLabels_hasLength
  by_cases h : p < pd.domain.size
  · rw [Wires.joined_getD_l hlen h, pd.atRow_ownLabels h, Shifters.rowLabels_eq _ _ h]
  by_cases h' : p < 2 * pd.domain.size
  · obtain ⟨i, rfl⟩ : ∃ i, p = pd.domain.size + i := ⟨p - pd.domain.size, by omega⟩
    have hi : i < pd.domain.size := by omega
    rw [Wires.joined_getD_r hlen hi, pd.atRow_ownLabels hi, Shifters.rowLabels_eq _ _ hi]
  · obtain ⟨i, rfl⟩ : ∃ i, p = 2 * pd.domain.size + i := ⟨p - 2 * pd.domain.size, by omega⟩
    have hi : i < pd.domain.size := by omega
    rw [Wires.joined_getD_o hlen, pd.atRow_ownLabels hi, Shifters.rowLabels_eq _ _ hi]

variable {pd wires}

/-- The product over the rows is the shifted product of all sums. -/
theorem prod_rowFactor (gamma : Scalar) {labels : Wires (List Scalar)} {n : Nat}
    (hw : wires.HasLength n) (hl : labels.HasLength n) :
    ∏ i ∈ Finset.range n, rowFactor gamma (wires.atRow i) (labels.atRow i) =
      shiftedProduct ((Multiset.range (3 * n)).map fun p =>
        wires.joined.getD p 0 + labels.joined.getD p 0) gamma := by
  have h := Wires.prod_atRow hw hl fun value label => value + gamma + label
  rw [shiftedProduct, Multiset.map_map]
  refine h.trans (congrArg Multiset.prod (Multiset.map_congr rfl ?_))
  intro p _
  rw [Function.comp_apply]
  ring

/-- The numerator of a row by the labels of its positions. -/
theorem numerator_eq {i : Nat} (hi : i < pd.domain.size) :
    pd.numerator wires gamma i = rowFactor gamma (wires.atRow i)
      ((⟨i, pd.domain.size + i, 2 * pd.domain.size + i⟩ : Wires Nat).map
        (pd.shifters.labelOf pd.domain)) := by
  rw [numerator, Shifters.rowLabels_eq _ _ hi]
  rfl

/-- The numerators multiply to the shifted product of the own sums. -/
theorem prod_numerator (hw : wires.HasLength pd.domain.size) :
    ∏ i ∈ Finset.range pd.domain.size, pd.numerator wires gamma i =
      shiftedProduct (pd.ownSums wires) gamma := by
  have hrows : ∀ i ∈ Finset.range pd.domain.size, pd.numerator wires gamma i =
      rowFactor gamma (wires.atRow i) (pd.ownLabels.atRow i) := by
    intro i hi
    rw [pd.atRow_ownLabels (Finset.mem_range.1 hi), numerator]
  rw [Finset.prod_congr rfl hrows, prod_rowFactor gamma hw pd.ownLabels_hasLength, ownSums]
  refine congrArg (shiftedProduct · gamma) (Multiset.map_congr rfl ?_)
  intro p hp
  rw [pd.joined_ownLabels (Multiset.mem_range.1 hp)]

theorem denominator_layout (c : Circuit) (w : List Scalar) {i : Nat} (hi : i < pd.domain.size) :
    pd.denominator (c.layout w pd.domain.size) gamma i =
      rowFactor gamma (c.rowValues w i) (pd.labels.atRow i) := by
  rw [denominator, Circuit.atRow_layout hi]

end Preprocessed

/-! ### Copy constraints -/

namespace Circuit.Describes

variable {G₁ G₂ : Type} {c : Circuit} {scheme : Scheme G₁ G₂} {pd : Preprocessed G₁ G₂}
  (h : c.Describes scheme pd) {wires : Wires (List Scalar)} {gamma : Scalar}
include h

theorem wiring_length : (c.wiring pd.domain.size).length = 3 * pd.domain.size := by
  rw [h.domainSize]
  exact Circuit.wiring_length c.size_le_domainSize

/-- The stored permutation is the table of next occurrences. -/
theorem permutation_eq : pd.permutation = nextPositions (c.wiring pd.domain.size) := by
  rw [h.permutation, h.domainSize]

theorem permutation_length : pd.permutation.length = 3 * pd.domain.size := by
  rw [h.permutation_eq, nextPositions_length, h.wiring_length]

theorem permutation_perm : pd.permutation.Perm (List.range (3 * pd.domain.size)) := by
  rw [h.permutation_eq, ← h.wiring_length]
  exact nextPositions_perm _

/-- A sum over all positions does not change if every position is replaced by its next one. -/
theorem map_permutation (f : Nat → Scalar) :
    (Multiset.range (3 * pd.domain.size)).map (fun p => f (pd.permutation.getD p 0)) =
      (Multiset.range (3 * pd.domain.size)).map f := by
  have hnext : (Multiset.range (3 * pd.domain.size)).map (pd.permutation.getD · 0) =
      Multiset.range (3 * pd.domain.size) := by
    have hlist := Wires.eq_map_range h.permutation_length
    show ((List.map _ (List.range _) : List Nat) : Multiset Nat) = _
    rw [← hlist]
    exact Multiset.coe_eq_coe.2 h.permutation_perm
  conv_rhs => rw [← hnext, Multiset.map_map]
  rfl

/-- The stored labels in one list: each position carries the label of its next occurrence. -/
theorem joined_labels {p : Nat} (hp : p < 3 * pd.domain.size) :
    pd.labels.joined.getD p 0 = pd.shifters.labelOf pd.domain (pd.permutation.getD p 0) := by
  rw [← h.permutation_length] at hp
  rw [h.labels, List.getD_eq_getElem _ _ (by rwa [List.length_map]), List.getElem_map,
    List.getD_eq_getElem _ _ hp]

/-- On a row stand the labels of the next positions. -/
theorem labels_atRow {i : Nat} (hi : i < pd.domain.size) : pd.labels.atRow i =
    (⟨i, pd.domain.size + i, 2 * pd.domain.size + i⟩ : Wires Nat).map fun p =>
      pd.shifters.labelOf pd.domain (pd.permutation.getD p 0) := by
  refine Wires.ext ?_ ?_ ?_
  · rw [← Wires.joined_getD_l h.labelLength hi]
    exact h.joined_labels (by omega)
  · rw [← Wires.joined_getD_r h.labelLength hi]
    exact h.joined_labels (by omega)
  · rw [← Wires.joined_getD_o h.labelLength]
    exact h.joined_labels (by omega)

/-- The denominators multiply to the shifted product of the next sums. -/
theorem prod_denominator (hw : wires.HasLength pd.domain.size) :
    ∏ i ∈ Finset.range pd.domain.size, pd.denominator wires gamma i =
      shiftedProduct (pd.nextSums wires) gamma := by
  have hrows := Preprocessed.prod_rowFactor gamma hw h.labelLength
  refine hrows.trans (congrArg (shiftedProduct · gamma) (Multiset.map_congr rfl ?_))
  intro p hp
  rw [h.joined_labels (Multiset.mem_range.1 hp)]

/-- The accumulator closes if the sums of value and label are the same with own and with next
labels, as far as one shift can tell. -/
theorem accumulated_eq_one_iff (hw : wires.HasLength pd.domain.size)
    (hden : ∀ i < pd.domain.size, pd.denominator wires gamma i ≠ 0) :
    pd.accumulated wires gamma pd.domain.size = 1 ↔
      shiftedProduct (pd.ownSums wires) gamma = shiftedProduct (pd.nextSums wires) gamma := by
  rw [Preprocessed.accumulated_eq_one_iff hden, Preprocessed.prod_numerator hw,
    h.prod_denominator hw]

/-- Wires that respect the copies have the same sums on both sides, reordered. -/
theorem ownSums_eq_nextSums (hr : pd.Respects wires) : pd.ownSums wires = pd.nextSums wires := by
  have hnext := h.map_permutation fun p =>
    wires.joined.getD p 0 + pd.shifters.labelOf pd.domain p
  rw [Preprocessed.ownSums, Preprocessed.nextSums, ← hnext]
  apply Multiset.map_congr rfl
  intro p hp
  rw [hr p (Multiset.mem_range.1 hp)]

/-- Wires that respect the copy constraints bring the accumulator back to one. -/
theorem accumulated_size_of_respects (hw : wires.HasLength pd.domain.size) (hr : pd.Respects wires)
    (hden : ∀ i < pd.domain.size, pd.denominator wires gamma i ≠ 0) :
    pd.accumulated wires gamma pd.domain.size = 1 := by
  rw [h.accumulated_eq_one_iff hw hden, h.ownSums_eq_nextSums hr]

/-- An assignment gives the same value to all positions of a variable. -/
theorem respects_layout (w : List Scalar) : pd.Respects (c.layout w pd.domain.size) := by
  intro p hp
  have hplen : p < (c.wiring pd.domain.size).length := by rwa [h.wiring_length]
  have hnext := nextPositions_isNext hplen
  rw [joined_layout, h.permutation_eq]
  obtain ⟨hlt, hsame⟩ := List.getElem?_eq_some_iff.1 hnext.there
  rw [List.getD_eq_getElem _ _ (by rwa [List.length_map]),
    List.getD_eq_getElem _ _ (by rwa [List.length_map]), List.getElem_map, List.getElem_map, hsame]

end Circuit.Describes

end PlonkKzg
