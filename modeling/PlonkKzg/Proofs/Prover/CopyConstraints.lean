import PlonkKzg.Proofs.Prover.Accumulator

/-!
# What a closed accumulator says

For which challenges the accumulator of wire columns closes, and how many they are.

* `Preprocessed.ClosesAt` — there is an accumulator for a challenge, and it closes;
* `Circuit.Describes.closesAt_iff` — what that says about the sums of value and label;
* `Circuit.closes_of_respects` — wires that respect the copy constraints close their accumulator;
* `Circuit.encard_closesAt_le_iff` — few challenges close the accumulator if and only if the sums
  with own labels differ from those with next labels;
* `Circuit.bit_unequal_closesAt` — wires that break the copy constraints can have equal sums: along
  a cycle of three, values make up for labels.
-/

namespace PlonkKzg

open PlonkKzg.Poly

/-- There is an accumulator for the challenge, and it closes. -/
def Preprocessed.ClosesAt {G₁ G₂ : Type} (pd : Preprocessed G₁ G₂) (wires : Wires (List Scalar))
    (gamma : Scalar) : Prop :=
  ∃ z, pd.accumulator wires gamma = .ok z ∧ pd.closes wires z gamma = .ok true

namespace Circuit

section

variable {G₁ G₂ : Type} {c : Circuit} {scheme : Scheme G₁ G₂} {pd : Preprocessed G₁ G₂}
  {wires : Wires (List Scalar)} {gamma : Scalar}

/-- The accumulator closes where no denominator vanishes and the shifted products agree. -/
theorem Describes.closesAt_iff (h : c.Describes scheme pd) (hw : wires.HasLength pd.domain.size) :
    pd.ClosesAt wires gamma ↔ (∀ i < pd.domain.size, pd.denominator wires gamma i ≠ 0) ∧
      shiftedProduct (pd.ownSums wires) gamma = shiftedProduct (pd.nextSums wires) gamma := by
  constructor
  · rintro ⟨z, hz, hclose⟩
    obtain ⟨-, hden, rfl⟩ := (Preprocessed.accumulator_eq_ok_iff h.labelLength).1 hz
    rw [Preprocessed.closes_accumulator_iff h.labelLength hw hden] at hclose
    exact ⟨hden, (h.accumulated_eq_one_iff hw hden).1 hclose⟩
  · rintro ⟨hden, hsums⟩
    refine ⟨_, (Preprocessed.accumulator_eq_ok_iff h.labelLength).2 ⟨hw, hden, rfl⟩, ?_⟩
    rw [Preprocessed.closes_accumulator_iff h.labelLength hw hden]
    exact (h.accumulated_eq_one_iff hw hden).2 hsums

/-- Sums that differ as multisets close at few shifts. -/
theorem Describes.encard_closesAt_le (h : c.Describes scheme pd)
    (hw : wires.HasLength pd.domain.size) (hne : pd.ownSums wires ≠ pd.nextSums wires) :
    {gamma | pd.ClosesAt wires gamma}.encard ≤ (3 * pd.domain.size : Nat) := by
  have hsub : {gamma | pd.ClosesAt wires gamma} ⊆
      {gamma | shiftedProduct (pd.ownSums wires) gamma =
        shiftedProduct (pd.nextSums wires) gamma} :=
    fun gamma hgamma => ((h.closesAt_iff hw).1 hgamma).2
  exact (Set.encard_le_encard hsub).trans (encard_shiftedProduct_le hne
    (pd.card_ownSums wires).le (pd.card_nextSums wires).le)

/-- With equal sums the accumulator closes for every challenge without zero denominators. -/
theorem Describes.lt_encard_closesAt (h : c.Describes scheme pd)
    (hw : wires.HasLength pd.domain.size) (heq : pd.ownSums wires = pd.nextSums wires) :
    (3 * pd.domain.size : Nat) < {gamma | pd.ClosesAt wires gamma}.encard := by
  -- A challenge that does not close it makes some denominator zero, and few do.
  have hcover : (Set.univ : Set Scalar) ⊆ {gamma | pd.ClosesAt wires gamma} ∪
      {gamma | shiftedProduct (pd.nextSums wires) gamma = 0} := by
    intro gamma _
    by_cases hzero : shiftedProduct (pd.nextSums wires) gamma = 0
    · exact .inr hzero
    · refine .inl ((h.closesAt_iff hw).2 ⟨fun i hi hden => hzero ?_, by rw [heq]⟩)
      rw [← h.prod_denominator hw]
      exact Finset.prod_eq_zero (Finset.mem_range.2 hi) hden
  have hsize := pd.domain.size_le_two_pow
  have hbound : 6 * 2 ^ maxLog < Scalar.order := by decide
  by_contra hle
  have hcard : (Scalar.order : ENat) ≤ (3 * pd.domain.size : Nat) + (3 * pd.domain.size : Nat) :=
    calc (Scalar.order : ENat) = (Set.univ : Set Scalar).encard := encard_univ.symm
      _ ≤ _ := (Set.encard_le_encard hcover).trans (Set.encard_union_le _ _)
      _ ≤ _ := add_le_add (not_lt.1 hle) (encard_shiftedProduct_zero_le (pd.card_nextSums wires).le)
  have hcard : Scalar.order ≤ 3 * pd.domain.size + 3 * pd.domain.size := by exact_mod_cast hcard
  omega

end

/-- Wires that respect the copy constraints close every accumulator that they have, so that the
recurrence holds on all rows; and the wires of an assignment respect them, whether its gates are
satisfied or not. -/
theorem closes_of_respects {G₁ G₂ : Type} [SMul Scalar G₁] [Zero G₁] [Add G₁] {c : Circuit}
    {scheme : Scheme G₁ G₂} {pd : Preprocessed G₁ G₂} (hpd : c.preprocess scheme = .ok pd) :
    (∀ (wires : Wires (List Scalar)) (gamma : Scalar) (z : List Scalar),
      wires.HasLength pd.domain.size → pd.Respects wires → pd.accumulator wires gamma = .ok z →
        pd.closes wires z gamma = .ok true ∧ z.length = pd.domain.size ∧
        ∀ i < pd.domain.size,
          z.getD ((i + 1) % pd.domain.size) 0 * pd.denominator wires gamma i =
            z.getD i 0 * pd.numerator wires gamma i) ∧
    ∀ (w : List Scalar) (columns : Wires (List Scalar)),
      c.wireColumns w pd.domain.size = .ok columns →
        columns.HasLength pd.domain.size ∧ pd.Respects columns := by
  have h := describes_of_preprocess hpd
  constructor
  · intro wires gamma z hw hr hz
    obtain ⟨-, hden, rfl⟩ := (Preprocessed.accumulator_eq_ok_iff h.labelLength).1 hz
    have hone := h.accumulated_size_of_respects hw hr hden
    refine ⟨(Preprocessed.closes_accumulator_iff h.labelLength hw hden).2 hone,
      pd.accumulatedColumn_length wires gamma, ?_⟩
    intro i hi
    exact Preprocessed.accumulatedColumn_recurrence hone (hden i hi) hi
  · intro w columns hcolumns
    obtain ⟨-, ⟨-, hsize⟩, -, -, rfl⟩ := wireColumns_eq_ok_iff.1 hcolumns
    exact ⟨layout_hasLength hsize w, h.respects_layout w⟩

/-- The value three on all wires of the gate, and an assignment that fails the gate. -/
theorem bit_closes_of_respects : ∃ pd : Preprocessed G1 G2,
    bit.preprocess (.ofSecret 7 1) = .ok pd ∧
    (∃ z, (bitColumns (.ofNat 3) (.ofNat 3) (.ofNat 3)).HasLength pd.domain.size ∧
      pd.Respects (bitColumns (.ofNat 3) (.ofNat 3) (.ofNat 3)) ∧
      pd.accumulator (bitColumns (.ofNat 3) (.ofNat 3) (.ofNat 3)) (.ofNat 2) = .ok z ∧
      pd.closes (bitColumns (.ofNat 3) (.ofNat 3) (.ofNat 3)) z (.ofNat 2) = .ok true) ∧
    ∃ columns, bit.wireColumns [1, .ofNat 3] pd.domain.size = .ok columns ∧
      pd.Respects columns := by
  obtain ⟨pd, hpd, hsize, hperm, hlabel⟩ := preprocess_bit
  have h := describes_of_preprocess hpd
  have hw := bitColumns_hasLength hsize (.ofNat 3) (.ofNat 3) (.ofNat 3)
  have hr : pd.Respects (bitColumns (.ofNat 3) (.ofNat 3) (.ofNat 3)) := by
    intro p hp
    rw [hsize] at hp
    rw [hperm]
    interval_cases p <;> rfl
  have hden : ∀ i < pd.domain.size,
      pd.denominator (bitColumns (.ofNat 3) (.ofNat 3) (.ofNat 3)) (.ofNat 2) i ≠ 0 := by
    intro i hi
    rw [Preprocessed.denominator, h.labels_atRow hi]
    simp only [hlabel, hperm, hsize, Wires.map] at hi ⊢
    interval_cases i <;> decide
  have hz := (Preprocessed.accumulator_eq_ok_iff h.labelLength).2 ⟨hw, hden, rfl⟩
  have hcolumns : bit.wireColumns [1, .ofNat 3] pd.domain.size =
      .ok (bit.layout [1, .ofNat 3] pd.domain.size) := by
    rw [hsize]
    rfl
  exact ⟨pd, hpd, ⟨_, hw, hr, hz, ((closes_of_respects hpd).1 _ _ _ hw hr hz).1⟩, _, hcolumns,
    ((closes_of_respects hpd).2 _ _ hcolumns).2⟩

/-- Whatever the values on the wires are, few challenges close the accumulator if and only if the
sums of value and own label are not those of value and next label. -/
theorem encard_closesAt_le_iff {G₁ G₂ : Type} [SMul Scalar G₁] [Zero G₁] [Add G₁] {c : Circuit}
    {scheme : Scheme G₁ G₂} {pd : Preprocessed G₁ G₂} (hpd : c.preprocess scheme = .ok pd)
    {wires : Wires (List Scalar)} (hw : wires.HasLength pd.domain.size) :
    {gamma | pd.ClosesAt wires gamma}.encard ≤ (3 * pd.domain.size : Nat) ↔
      pd.ownSums wires ≠ pd.nextSums wires := by
  have h := describes_of_preprocess hpd
  constructor
  · intro hle heq
    exact absurd hle (not_le.2 (h.lt_encard_closesAt hw heq))
  · exact h.encard_closesAt_le hw

/-- The values two, three and three break the copy constraints, and the sums differ. -/
theorem bit_encard_closesAt_le : ∃ pd : Preprocessed G1 G2,
    bit.preprocess (.ofSecret 7 1) = .ok pd ∧
    (bitColumns (.ofNat 2) (.ofNat 3) (.ofNat 3)).HasLength pd.domain.size ∧
    {gamma | pd.ClosesAt (bitColumns (.ofNat 2) (.ofNat 3) (.ofNat 3)) gamma}.encard ≤
      (3 * pd.domain.size : Nat) := by
  obtain ⟨pd, hpd, hsize, hperm, hlabel⟩ := preprocess_bit
  have hw := bitColumns_hasLength hsize (.ofNat 2) (.ofNat 3) (.ofNat 3)
  refine ⟨pd, hpd, hw, (encard_closesAt_le_iff hpd hw).2 ?_⟩
  simp only [Preprocessed.ownSums, Preprocessed.nextSums, hlabel, hsize, hperm]
  decide

/-- The values 25, 1 and 5 break the copy constraints too, on a cycle whose labels are 1, 5 and 25:
the sums are equal, and the accumulator closes for almost all challenges. -/
theorem bit_unequal_closesAt : ∃ pd : Preprocessed G1 G2,
    bit.preprocess (.ofSecret 7 1) = .ok pd ∧
    (bitColumns (.ofNat 25) 1 (.ofNat 5)).HasLength pd.domain.size ∧
    (∃ p < 3 * pd.domain.size, (bitColumns (.ofNat 25) 1 (.ofNat 5)).joined.getD p 0 ≠
      (bitColumns (.ofNat 25) 1 (.ofNat 5)).joined.getD (pd.permutation.getD p 0) 0) ∧
    ¬{gamma | pd.ClosesAt (bitColumns (.ofNat 25) 1 (.ofNat 5)) gamma}.encard ≤
      (3 * pd.domain.size : Nat) := by
  obtain ⟨pd, hpd, hsize, hperm, hlabel⟩ := preprocess_bit
  have hw := bitColumns_hasLength hsize (.ofNat 25) 1 (.ofNat 5)
  have hsums : pd.ownSums (bitColumns (.ofNat 25) 1 (.ofNat 5)) =
      pd.nextSums (bitColumns (.ofNat 25) 1 (.ofNat 5)) := by
    simp only [Preprocessed.ownSums, Preprocessed.nextSums, hlabel, hsize, hperm]
    decide
  have hlt := (describes_of_preprocess hpd).lt_encard_closesAt hw hsums
  refine ⟨pd, hpd, hw, ⟨0, by omega, ?_⟩, not_le.2 hlt⟩
  rw [hperm]
  decide

end Circuit

end PlonkKzg
