import PlonkKzg.Proofs.Prover.Trace

/-!
# Which circuits have public data

Preprocessing gives public data for a circuit if and only if the scheme can commit to the quotient,
the gates name variables of the circuit, and the field and memory have room; the data are then the
gates and the copy constraints, in values and in coefficients.

* `Preprocessed.Encodes` — what public data hold;
* `Circuit.encodes_of_preprocess` — preprocessing gives such data;
* `Circuit.preprocess_isOk_iff`, `Circuit.preprocess_eq_misuse` — the circuits for which it gives
  any, and those with too many variables;
* `Circuit.preprocess_correct` — when there are data, and what they hold;
* `Circuit.wideBit` — a circuit with more variables than memory has room for.
-/

namespace PlonkKzg

/-- The public data of a circuit: the gates and the copy constraints as columns and as polynomials,
and the commitments to these. -/
structure Preprocessed.Encodes {G₁ G₂ : Type} [SMul Scalar G₁] [Zero G₁] [Add G₁]
    (pd : Preprocessed G₁ G₂) (c : Circuit) (scheme : Scheme G₁ G₂) : Prop where
  size : pd.size = c.size
  domainSize : pd.domain.size = c.domainSize
  depth : pd.domain.depth = 3
  quotientSize : pd.quotientDomain.size = 4 * c.domainSize
  quotientDepth : pd.quotientDomain.depth = 1
  /-- Both domains have the same finer root. -/
  finerGenerator : pd.quotientDomain.finerGenerator = pd.domain.finerGenerator
  finerGenerator_pow : pd.domain.finerGenerator ^ 8 = pd.domain.generator
  /-- On the row of a gate the selector polynomials have its selectors as values. -/
  gates : ∀ i g, c.rows[i]? = some g →
    pd.selectors.map (·.eval (pd.domain.generator ^ i)) = g.selectors
  /-- On the rows after the last gate they are zero. -/
  padding : ∀ i, c.size ≤ i → i < c.domainSize →
    pd.selectors.map (·.eval (pd.domain.generator ^ i)) = ⟨0, 0, 0, 0, 0⟩
  permutation : c.permutation c.domainSize = .ok pd.permutation
  labelLength : pd.labels.HasLength c.domainSize
  /-- At each position stands the label of the next one. -/
  labels : ∀ column < 3, ∀ i < c.domainSize, ∃ t < 3 * c.domainSize,
    pd.permutation[column * c.domainSize + i]? = some t ∧
    (pd.labels.toList.getD column [])[i]? = some (
      (⟨1, pd.shifters.r, pd.shifters.o⟩ : Wires Scalar).toList.getD (t / c.domainSize) 0 *
        pd.domain.generator ^ (t % c.domainSize))
  sigmaDegree : ∀ p ∈ pd.sigmas.toList, p.degree < c.domainSize
  /-- On each row the polynomials of the copy constraints have the labels as values. -/
  sigmas : ∀ i < c.domainSize,
    pd.sigmas.map (·.eval (pd.domain.generator ^ i)) = pd.labels.atRow i
  selectorCommitments : pd.selectors.mapM scheme.commit = .ok pd.selectorCommitments
  sigmaCommitments : pd.sigmas.mapM scheme.commit = .ok pd.sigmaCommitments
  scheme : pd.scheme = scheme

namespace Circuit

theorem getElem?_rowSelectors {c : Circuit} {i : Nat} {g : Gate} (hg : c.rows[i]? = some g) :
    c.rowSelectors i = g.selectors := by
  rw [rowSelectors, List.getD_eq_getElem?_getD, List.getElem?_map, hg]
  rfl

theorem rowSelectors_of_le {c : Circuit} {i : Nat} (hi : c.size ≤ i) :
    c.rowSelectors i = ⟨0, 0, 0, 0, 0⟩ := by
  rw [rowSelectors, List.getD_eq_default _ _ (by rwa [List.length_map, rows_length])]

/-- The label at a position, by the number of the next one. -/
theorem Describes.exists_label {G₁ G₂ : Type} {c : Circuit} {scheme : Scheme G₁ G₂}
    {pd : Preprocessed G₁ G₂} (h : c.Describes scheme pd) {column i : Nat} (hcolumn : column < 3)
    (hi : i < pd.domain.size) : ∃ t < 3 * pd.domain.size,
      pd.permutation[column * pd.domain.size + i]? = some t ∧
      (pd.labels.toList.getD column [])[i]? = some (pd.shifters.labelOf pd.domain t) := by
  have hp : column * pd.domain.size + i < pd.permutation.length := by
    have hle : column * pd.domain.size ≤ 2 * pd.domain.size :=
      Nat.mul_le_mul_right _ (Nat.le_of_lt_succ hcolumn)
    rw [h.permutation_length]
    omega
  have ht := List.getElem?_eq_getElem hp
  refine ⟨_, ?_, ht, ?_⟩
  · exact List.mem_range.1 (h.permutation_perm.mem_iff.1 (List.getElem_mem hp))
  · rw [← Wires.getElem?_joined h.labelLength hcolumn hi, h.labels, List.getElem?_map, ht]
    rfl

variable {G₁ G₂ : Type} [SMul Scalar G₁] [Zero G₁] [Add G₁] {c : Circuit} {scheme : Scheme G₁ G₂}

/-- What preprocessing returns encodes the circuit and the parameters. -/
theorem encodes_of_preprocess {pd : Preprocessed G₁ G₂} (h : c.preprocess scheme = .ok pd) :
    pd.Encodes c scheme := by
  have hsteps := preprocess_eq_ok_iff.1 h
  have hd := describes_of_preprocess h
  have hsize := hd.domainSize
  have hpow := pd.domain.finerGenerator_pow
  rw [hd.refines.depth] at hpow
  refine {
    size := hsteps.size
    scheme := hd.scheme
    domainSize := hsize
    depth := hd.refines.depth
    quotientSize := hd.refines.size.trans (congrArg _ hsize)
    quotientDepth := hd.refines.quotientDepth
    finerGenerator := hd.refines.finerGenerator
    finerGenerator_pow := hpow
    gates := ?_
    padding := ?_
    permutation := hsteps.permutation
    labelLength := hsize ▸ hd.labelLength
    labels := ?_
    sigmaDegree := ?_
    sigmas := ?_
    selectorCommitments := hsteps.selectorCommitments
    sigmaCommitments := hsteps.sigmaCommitments }
  · intro i g hg
    obtain ⟨hi, -⟩ := List.getElem?_eq_some_iff.1 hg
    rw [rows_length] at hi
    rw [hd.eval_selectors (by have := c.size_le_domainSize; omega), getElem?_rowSelectors hg]
  · intro i hle hi
    rw [hd.eval_selectors (hi.trans_eq hsize.symm), rowSelectors_of_le hle]
  · intro column hcolumn i hi
    rw [← hsize] at hi ⊢
    exact hd.exists_label hcolumn hi
  · intro p hp
    have hle := Wires.length_le_of_interpolate hd.sigmas p hp
    have htwo := c.two_le_domainSize
    rw [Poly.degree]
    omega
  · intro i hi
    exact Wires.eval_of_interpolate hd.sigmas (hi.trans_eq hsize.symm)

/-! ### The circuits that have public data -/

/-- The limit on the size, in terms of the order of the roots. -/
theorem eight_mul_domainSize_le_iff (c : Circuit) :
    8 * c.domainSize ≤ 2 ^ 28 ↔ c.domainLog + rowDepth ≤ maxLog := by
  have hpow : 8 * c.domainSize = 2 ^ (c.domainLog + 3) := by
    rw [domainSize, Nat.pow_eq, pow_add]
    omega
  rw [hpow, rowDepth, maxLog]
  exact Nat.pow_le_pow_iff_right (by decide)

/-- The tables of the positions fit if there is a domain, so those of the variables decide. -/
theorem tabulable_iff {n : Nat} (h : 8 * n ≤ 2 ^ 28) :
    c.Tabulable n ↔ c.varCount.toNat < 2 ^ 59 := by
  have hlimit : tableLimit = 2 ^ 63 := rfl
  simp only [Tabulable, TableFits, wordWidth, placeWidth, hlimit]
  omega

/-- Preprocessing succeeds exactly under these conditions. -/
theorem preprocess_isOk_iff (c : Circuit) (scheme : Scheme G₁ G₂) :
    (∃ pd, c.preprocess scheme = .ok pd) ↔
      4 * c.domainSize ≤ scheme.maxDegree + 1 ∧
        (0 < c.varCount ∧ ∀ g ∈ c.rows, c.Admits g) ∧
        8 * c.domainSize ≤ 2 ^ 28 ∧ c.varCount.toNat < 2 ^ 59 := by
  have hpos : 0 < c.domainSize := Nat.lt_of_lt_of_le (by decide) c.two_le_domainSize
  have hwired := wired_iff hpos c.size_le_domainSize
  constructor
  · rintro ⟨pd, hpd⟩
    have h := preprocess_eq_ok_iff.1 hpd
    obtain ⟨-, htable, hw, -⟩ := permutation_eq_ok_iff.1 h.permutation
    have hd := describes_of_preprocess hpd
    have hroom : 8 * c.domainSize ≤ 2 ^ 28 := by
      have hbound := pd.domain.size_mul_two_pow_depth_le
      rw [hd.refines.depth, hd.domainSize, maxLog] at hbound
      omega
    exact ⟨Nat.not_lt.1 h.capacity, hwired.1 hw, hroom, (tabulable_iff hroom).1 htable⟩
  · rintro ⟨hcapacity, hw, hroom, hvars⟩
    exact preprocess_isOk hcapacity (c.eight_mul_domainSize_le_iff.1 hroom)
      ((tabulable_iff hroom).2 hvars) (hwired.2 hw)

/-- With more variables there is no error, but a table that memory has no place for. -/
theorem preprocess_eq_misuse (hcapacity : 4 * c.domainSize ≤ scheme.maxDegree + 1)
    (hroom : 8 * c.domainSize ≤ 2 ^ 28) (hvars : 2 ^ 59 ≤ c.varCount.toNat) :
    c.preprocess scheme = .error (.misuse .tableTooLarge) := by
  have htable : ¬c.Tabulable c.domainSize := by
    rw [tabulable_iff hroom]
    omega
  have hword : FitsWord (3 * c.domainSize) := by
    show 3 * c.domainSize < 2 ^ 64
    omega
  exact preprocess_eq_error hcapacity (c.eight_mul_domainSize_le_iff.1 hroom)
    (permutation_eq_misuse c.size_le_domainSize hword htable)

/-- Preprocessing gives public data exactly for the circuits that fit, and the public data are those
of the circuit. -/
theorem preprocess_correct (c : Circuit) (scheme : Scheme G₁ G₂) :
    ((∃ pd, c.preprocess scheme = .ok pd) ↔
      4 * c.domainSize ≤ scheme.maxDegree + 1 ∧
        (0 < c.varCount ∧ ∀ g ∈ c.rows, c.Admits g) ∧
        8 * c.domainSize ≤ 2 ^ 28 ∧ c.varCount.toNat < 2 ^ 59) ∧
    ∀ pd, c.preprocess scheme = .ok pd → pd.Encodes c scheme :=
  ⟨c.preprocess_isOk_iff scheme, fun _ => encodes_of_preprocess⟩

theorem bit_preprocess_correct : ∃ pd : Preprocessed G1 G2,
    bit.preprocess (.ofSecret 7 1) = .ok pd ∧ pd.Encodes bit (.ofSecret 7 1) := by
  obtain ⟨pd, hpd, -⟩ := preprocess_bit
  exact ⟨pd, hpd, (preprocess_correct bit (.ofSecret 7 1)).2 pd hpd⟩

/-- A circuit with so many variables that the tables of their positions have no place in memory. -/
def wideBit : Circuit := { bit with varCount := 2305843009213693952 }

/-- The scheme, the field and the gates would admit it. -/
theorem wideBit_preprocess :
    (4 * wideBit.domainSize ≤ (Scheme.ofSecret 7 1 : Scheme G1 G2).maxDegree + 1 ∧
      (0 < wideBit.varCount ∧ ∀ g ∈ wideBit.rows, wideBit.Admits g) ∧
      8 * wideBit.domainSize ≤ 2 ^ 28) ∧
    wideBit.preprocess (.ofSecret 7 1 : Scheme G1 G2) = .error (.misuse .tableTooLarge) := by
  have hcapacity : 4 * wideBit.domainSize ≤ (Scheme.ofSecret 7 1 : Scheme G1 G2).maxDegree + 1 := by
    rw [Scheme.maxDegree_ofSecret]
    decide
  have hroom : 8 * wideBit.domainSize ≤ 2 ^ 28 := by decide
  exact ⟨⟨hcapacity, by decide, hroom⟩, preprocess_eq_misuse hcapacity hroom (by decide)⟩

end Circuit

end PlonkKzg
