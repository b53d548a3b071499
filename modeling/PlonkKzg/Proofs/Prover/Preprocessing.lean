import PlonkKzg.Prover.Accumulator
import PlonkKzg.Proofs.Circuit.Permutation
import PlonkKzg.Proofs.Commitment.Opening
import PlonkKzg.Proofs.Domain.Interpolation
import PlonkKzg.Proofs.Domain.Tower

/-!
# What preprocessing gives

The public data of a circuit, part by part, and when there are any.

* `Shifters.labelOf` — the label of a wire position as a number, `Shifters.label_eq_ok` — which is
  the label of every position there is;
* `Circuit.Preprocesses`, `Circuit.preprocess_eq_ok_iff` — the steps of preprocessing;
* `Circuit.Describes` — the parts of the public data;
* `Circuit.describes_of_preprocess` — preprocessing gives nothing else;
* `Circuit.preprocess_isOk` — and gives something for every circuit whose gates name its own
  variables, if the scheme, the field and memory have room;
* `Circuit.preprocess_eq_error` — otherwise with the error of the permutation, if the scheme and the
  field have room;
* `Circuit.bit` — a circuit with one gate.
-/

namespace PlonkKzg

open PlonkKzg.Poly

/-! ### Labels -/

namespace Shifters

/-- The element of the row of a position, times the factor of its column. -/
def labelOf (s : Shifters) (d : Domain) (p : Nat) : Scalar :=
  s.columns.toList.getD (p / d.size) 0 * d.generator ^ (p % d.size)

theorem column_lt {d : Domain} {p : Nat} (hp : p < 3 * d.size) : p / d.size < 3 :=
  Nat.div_lt_of_lt_mul (by rwa [Nat.mul_comm] at hp)

/-- Every position of the table has its label. -/
theorem label_eq_ok (s : Shifters) {d : Domain} {p : Nat} (hp : p < 3 * d.size) :
    s.label d p = .ok (s.labelOf d p) := by
  have hcolumn := column_lt hp
  rw [label, labelOf, Domain.element_eq_pow]
  generalize p / d.size = column at hcolumn
  match column, hcolumn with
  | 0, _ => simp [columns, Wires.toList]
  | 1, _ => simp [columns, Wires.toList]
  | 2, _ => simp [columns, Wires.toList]

/-- The label at a column and a row: the column's shifter times the element. -/
theorem labelOf_add (s : Shifters) (d : Domain) (column : Nat) {i : Nat} (hi : i < d.size) :
    s.labelOf d (column * d.size + i) = s.columns.toList.getD column 0 * d.generator ^ i := by
  rw [labelOf, Nat.mul_comm, Nat.mul_add_div d.size_pos, Nat.div_eq_of_lt hi, Nat.add_zero,
    Nat.mul_add_mod, Nat.mod_eq_of_lt hi]

/-- The labels of the positions of a row. -/
theorem rowLabels_eq (s : Shifters) (d : Domain) {i : Nat} (hi : i < d.size) :
    s.rowLabels (d.generator ^ i) =
      ⟨s.labelOf d i, s.labelOf d (d.size + i), s.labelOf d (2 * d.size + i)⟩ := by
  have hl := s.labelOf_add d 0 hi
  have hr := s.labelOf_add d 1 hi
  have ho := s.labelOf_add d 2 hi
  rw [Nat.zero_mul, Nat.zero_add] at hl
  rw [Nat.one_mul] at hr
  rw [hl, hr, ho]
  rfl

/-- The order of the generator is far above twice the size of a domain. -/
theorem ofSize_isOk (d : Domain) :
    ofSize d.size = .ok ⟨Scalar.generator, Scalar.generator.square⟩ := by
  have hsmall : ∀ n, 0 < n → n < Scalar.order - 1 → Scalar.generator ^ n ≠ 1 := by
    intro n hpos hlt hone
    have hdvd := PlonkKzg.generator_primitive.dvd_of_pow_eq_one n hone
    exact absurd (Nat.le_of_dvd hpos hdvd) (by omega)
  have hsize := d.size_le_two_pow
  have hbound : 2 * 2 ^ maxLog < Scalar.order - 1 := by decide
  have hpos := d.size_pos
  rw [ofSize, power_eq_pow, power_eq_pow, Residue.square, ← pow_two, ← pow_mul]
  refine if_neg ?_
  rintro (hone | hone)
  · exact hsmall _ hpos (by omega) hone
  · exact hsmall _ (by omega) (by omega) hone

theorem labels_eq_ok_iff {s : Shifters} {d : Domain} {positions : List Nat} {ls : List Scalar}
    (h : ∀ p ∈ positions, p < 3 * d.size) :
    s.labels d positions = .ok ls ↔ ls = positions.map (s.labelOf d) := by
  rw [labels, mapM_eq_ok_map fun p hp => s.label_eq_ok (h p hp), Except.ok.injEq, eq_comm]

end Shifters

/-! ### Public data -/

namespace Circuit

/-- A domain has at least two elements, also for the empty circuit. -/
theorem two_le_domainSize (c : Circuit) : 2 ≤ c.domainSize := by
  have hlog : 1 ≤ c.domainLog := by
    rw [domainLog]
    split <;> omega
  have hpow : 2 ^ 1 ≤ 2 ^ c.domainLog := Nat.pow_le_pow_right (by decide) hlog
  exact hpow

/-- The parts of the public data of a circuit for a scheme. -/
structure Describes {G₁ G₂ : Type} (c : Circuit) (scheme : Scheme G₁ G₂)
    (pd : Preprocessed G₁ G₂) : Prop where
  /-- The scheme can commit to the quotient. -/
  capacity : cosetCount * c.domainSize ≤ scheme.g1.length
  scheme : pd.scheme = scheme
  domainSize : pd.domain.size = c.domainSize
  refines : pd.quotientDomain.Refines pd.domain
  shifters : pd.shifters = ⟨Scalar.generator, Scalar.generator.square⟩
  /-- All positions carry variables of the circuit. -/
  wired : c.Wired c.domainSize
  permutation : pd.permutation = nextPositions (c.wiring c.domainSize)
  selectors : (c.selectorColumns c.domainSize).mapM pd.domain.interpolate = .ok pd.selectors
  labelLength : pd.labels.HasLength pd.domain.size
  /-- At each position stands the label of the next one. -/
  labels : pd.labels.joined = pd.permutation.map (pd.shifters.labelOf pd.domain)
  sigmas : pd.labels.mapM pd.domain.interpolate = .ok pd.sigmas

/-- The columns that a list of all positions is cut into. -/
theorem cut_hasLength {α : Type} {as : List α} {n : Nat} (h : as.length = 3 * n) :
    (⟨as.take n, (as.drop n).take n, as.drop (2 * n)⟩ : Wires (List α)).HasLength n := by
  constructor <;> simp only [List.length_take, List.length_drop] <;> omega

/-- Cutting a list into three columns and joining them gives it back. -/
theorem joined_cut {α : Type} (as : List α) (n : Nat) :
    (⟨as.take n, (as.drop n).take n, as.drop (2 * n)⟩ : Wires (List α)).joined = as := by
  rw [Wires.joined, List.append_assoc, show 2 * n = n + n by omega, ← List.drop_drop,
    List.take_append_drop, List.take_append_drop]

/-- All next occurrences are positions of the table. -/
theorem nextPositions_wiring_lt {c : Circuit} {n : Nat} (h : c.size ≤ n) :
    ∀ p ∈ nextPositions (c.wiring n), p < 3 * n := by
  intro p hp
  exact (nextPositions_lt hp).trans_eq (wiring_length h)

section

variable {G₁ G₂ : Type} [SMul Scalar G₁] [Zero G₁] [Add G₁]

/-- The results of the steps of preprocessing. -/
structure Preprocesses (c : Circuit) (scheme : Scheme G₁ G₂) (pd : Preprocessed G₁ G₂) : Prop where
  capacity : ¬scheme.maxDegree + 1 < cosetCount * c.domainSize
  domain : Domain.ofSize c.domainSize rowDepth = .ok pd.domain
  quotientDomain :
    Domain.ofSize (cosetCount * c.domainSize) quotientDepth = .ok pd.quotientDomain
  finerGenerator : pd.domain.finerGenerator = pd.quotientDomain.finerGenerator
  shifters : Shifters.ofSize c.domainSize = .ok pd.shifters
  selectors : (c.selectorColumns c.domainSize).mapM pd.domain.interpolate = .ok pd.selectors
  selectorCommitments : pd.selectors.mapM scheme.commit = .ok pd.selectorCommitments
  permutation : c.permutation c.domainSize = .ok pd.permutation
  labels : ∃ positions, pd.shifters.labels pd.domain pd.permutation = .ok positions ∧
    pd.labels = ⟨positions.take c.domainSize, (positions.drop c.domainSize).take c.domainSize,
      positions.drop (2 * c.domainSize)⟩
  sigmas : pd.labels.mapM pd.domain.interpolate = .ok pd.sigmas
  sigmaCommitments : pd.sigmas.mapM scheme.commit = .ok pd.sigmaCommitments
  size : pd.size = c.size
  scheme : pd.scheme = scheme

/-- Preprocessing, step by step, as the list of what each step returned. -/
theorem preprocess_eq_ok_iff {c : Circuit} {scheme : Scheme G₁ G₂} {pd : Preprocessed G₁ G₂} :
    c.preprocess scheme = .ok pd ↔ c.Preprocesses scheme pd := by
  simp only [preprocess, require_eq_ok_iff, bind_eq_ok_iff, lift_eq_ok_iff, pure_eq_ok_iff]
  constructor
  · rintro ⟨hcapacity, d, hd, q, hq, hroot, s, hs, selectors, hselectors, Cs, hCs, perm, hperm,
      positions, hpositions, sigmas, hsigmas, Ss, hSs, rfl⟩
    exact ⟨hcapacity, hd, hq, not_not.1 hroot, hs, hselectors, hCs, hperm, ⟨_, hpositions, rfl⟩,
      hsigmas, hSs, rfl, rfl⟩
  · obtain ⟨size, d, q, selectors, labels, sigmas, perm, s, Cs, Ss, _⟩ := pd
    rintro ⟨hcapacity, hd, hq, hroot, hs, hselectors, hCs, hperm, ⟨positions, hpositions, rfl⟩,
      hsigmas, hSs, rfl, rfl⟩
    exact ⟨hcapacity, d, hd, q, hq, not_not.2 hroot, s, hs, selectors, hselectors, Cs, hCs, perm,
      hperm, positions, hpositions, sigmas, hsigmas, Ss, hSs, rfl⟩

/-- What preprocessing returns describes the circuit. -/
theorem describes_of_preprocess {c : Circuit} {scheme : Scheme G₁ G₂} {pd : Preprocessed G₁ G₂}
    (h : c.preprocess scheme = .ok pd) : c.Describes scheme pd := by
  obtain ⟨hcapacity, hd, hq, -, hs, hselectors, -, hperm, ⟨positions, hpositions, hcut⟩, hsigmas,
    -, -, hscheme⟩ := preprocess_eq_ok_iff.1 h
  obtain ⟨hdsize, hddepth⟩ := Domain.ofSize_eq_ok hd
  obtain ⟨hqsize, hqdepth⟩ := Domain.ofSize_eq_ok hq
  obtain ⟨-, -, hwired, hnext⟩ := permutation_eq_ok_iff.1 hperm
  have htwo := c.two_le_domainSize
  have hlt : ∀ p ∈ pd.permutation, p < 3 * pd.domain.size := by
    rw [hdsize, hnext]
    exact nextPositions_wiring_lt c.size_le_domainSize
  have hlabels := (Shifters.labels_eq_ok_iff hlt).1 hpositions
  have hlen : positions.length = 3 * c.domainSize := by
    rw [hlabels, hnext, List.length_map, nextPositions_length,
      wiring_length c.size_le_domainSize]
  rw [← hdsize, Shifters.ofSize_isOk, Except.ok.injEq] at hs
  exact {
    capacity := by rw [Scheme.maxDegree, cosetCount] at hcapacity; rw [cosetCount]; omega
    scheme := hscheme
    domainSize := hdsize
    refines := ⟨hddepth, hqdepth, hqsize.trans (congrArg _ hdsize.symm)⟩
    shifters := hs.symm
    wired := hwired
    permutation := hnext
    selectors := hselectors
    labelLength := by rw [hdsize, hcut]; exact cut_hasLength hlen
    labels := by rw [hcut, joined_cut, hlabels]
    sigmas := hsigmas }

end

/-! ### When there are public data -/

section

variable {G₁ G₂ : Type} [SMul Scalar G₁] [Zero G₁] [Add G₁] {scheme : Scheme G₁ G₂} {d : Domain}

/-- Columns of the domain's size interpolate and commit when the parameters reach. -/
theorem interpolate_commit_isOk {column : List Scalar} (hlen : column.length = d.size)
    (hroom : d.size ≤ scheme.g1.length) :
    ∃ p C, d.interpolate column = .ok p ∧ scheme.commit p = .ok C := by
  obtain ⟨p, hp⟩ := Domain.interpolate_isOk hlen
  obtain ⟨-, hle, hne, -⟩ := Domain.interpolate_eq_ok hp
  obtain ⟨C, hC⟩ := Scheme.commit_isOk hne (hle.trans hroom)
  exact ⟨p, C, hp, hC⟩

theorem selectors_isOk {columns : Selectors (List Scalar)}
    (hlen : ∀ column ∈ columns.toList, column.length = d.size)
    (hroom : d.size ≤ scheme.g1.length) :
    ∃ ps Cs, columns.mapM d.interpolate = .ok ps ∧ ps.mapM scheme.commit = .ok Cs := by
  obtain ⟨ql, Cl, hql, hCl⟩ :=
    interpolate_commit_isOk (hlen columns.ql (by simp [Selectors.toList])) hroom
  obtain ⟨qr, Cr, hqr, hCr⟩ :=
    interpolate_commit_isOk (hlen columns.qr (by simp [Selectors.toList])) hroom
  obtain ⟨qm, Cm, hqm, hCm⟩ :=
    interpolate_commit_isOk (hlen columns.qm (by simp [Selectors.toList])) hroom
  obtain ⟨qo, Co, hqo, hCo⟩ :=
    interpolate_commit_isOk (hlen columns.qo (by simp [Selectors.toList])) hroom
  obtain ⟨qk, Ck, hqk, hCk⟩ :=
    interpolate_commit_isOk (hlen columns.qk (by simp [Selectors.toList])) hroom
  exact ⟨⟨ql, qr, qm, qo, qk⟩, ⟨Cl, Cr, Cm, Co, Ck⟩,
    Selectors.mapM_eq_ok_iff.2 ⟨hql, hqr, hqm, hqo, hqk⟩,
    Selectors.mapM_eq_ok_iff.2 ⟨hCl, hCr, hCm, hCo, hCk⟩⟩

theorem wires_isOk {columns : Wires (List Scalar)} (hlen : columns.HasLength d.size)
    (hroom : d.size ≤ scheme.g1.length) :
    ∃ ps Cs, columns.mapM d.interpolate = .ok ps ∧ ps.mapM scheme.commit = .ok Cs := by
  obtain ⟨l, Cl, hl, hCl⟩ := interpolate_commit_isOk hlen.l hroom
  obtain ⟨r, Cr, hr, hCr⟩ := interpolate_commit_isOk hlen.r hroom
  obtain ⟨o, Co, ho, hCo⟩ := interpolate_commit_isOk hlen.o hroom
  exact ⟨⟨l, r, o⟩, ⟨Cl, Cr, Co⟩, Wires.mapM_eq_ok_iff.2 ⟨hl, hr, ho⟩,
    Wires.mapM_eq_ok_iff.2 ⟨hCl, hCr, hCo⟩⟩

/-- The results of the steps before the permutation. -/
theorem setup_isOk {c : Circuit} {scheme : Scheme G₁ G₂}
    (hcapacity : cosetCount * c.domainSize ≤ scheme.maxDegree + 1)
    (hlog : c.domainLog + rowDepth ≤ maxLog) : ∃ (d q : Domain) (s : Shifters)
      (selectors : Selectors Poly) (Cs : Selectors G₁),
      d.size = c.domainSize ∧ d.size ≤ scheme.g1.length ∧
      Domain.ofSize c.domainSize rowDepth = .ok d ∧
      Domain.ofSize (cosetCount * c.domainSize) quotientDepth = .ok q ∧
      d.finerGenerator = q.finerGenerator ∧ Shifters.ofSize c.domainSize = .ok s ∧
      (c.selectorColumns c.domainSize).mapM d.interpolate = .ok selectors ∧
      selectors.mapM scheme.commit = .ok Cs := by
  have htwo := c.two_le_domainSize
  let d : Domain := ⟨c.domainLog, rowDepth, hlog⟩
  let q : Domain := ⟨c.domainLog + 2, quotientDepth, hlog⟩
  have hd : Domain.ofSize c.domainSize rowDepth = .ok d := Domain.ofSize_two_pow hlog
  have hq : Domain.ofSize (cosetCount * c.domainSize) quotientDepth = .ok q := by
    have hsize : cosetCount * c.domainSize = Nat.pow 2 (c.domainLog + 2) := by
      rw [domainSize, Nat.pow_eq, Nat.pow_eq, cosetCount, pow_add]
      omega
    rw [hsize]
    exact Domain.ofSize_two_pow (show c.domainLog + 2 + quotientDepth ≤ maxLog from hlog)
  have hroom : d.size ≤ scheme.g1.length := by
    rw [Scheme.maxDegree, cosetCount] at hcapacity
    show c.domainSize ≤ _
    omega
  obtain ⟨selectors, Cs, hselectors, hCs⟩ :=
    selectors_isOk (d := d) (selectorColumns_length c.size_le_domainSize) hroom
  exact ⟨d, q, _, selectors, Cs, rfl, hroom, hd, hq, rfl, Shifters.ofSize_isOk d, hselectors, hCs⟩

/-- Sufficient conditions for preprocessing to succeed. -/
theorem preprocess_isOk {c : Circuit} {scheme : Scheme G₁ G₂}
    (hcapacity : cosetCount * c.domainSize ≤ scheme.maxDegree + 1)
    (hlog : c.domainLog + rowDepth ≤ maxLog) (htable : c.Tabulable c.domainSize)
    (hwired : c.Wired c.domainSize) : ∃ pd, c.preprocess scheme = .ok pd := by
  obtain ⟨d, q, s, selectors, Cs, hsize, hroom, hd, hq, hroot, hs, hselectors, hCs⟩ :=
    setup_isOk hcapacity hlog
  let perm := nextPositions (c.wiring c.domainSize)
  let positions := perm.map (s.labelOf d)
  let labels : Wires (List Scalar) := ⟨positions.take c.domainSize,
    (positions.drop c.domainSize).take c.domainSize, positions.drop (2 * c.domainSize)⟩
  have hlabels : labels.HasLength d.size := by
    rw [hsize]
    apply cut_hasLength
    rw [List.length_map, nextPositions_length, wiring_length c.size_le_domainSize]
  have hperm : c.permutation c.domainSize = .ok perm :=
    permutation_eq_ok_iff.2 ⟨c.size_le_domainSize, htable, hwired, rfl⟩
  have hlt : ∀ p ∈ perm, p < 3 * d.size := by
    rw [hsize]
    exact nextPositions_wiring_lt c.size_le_domainSize
  obtain ⟨sigmas, Ss, hsigmas, hSs⟩ := wires_isOk hlabels hroom
  refine ⟨⟨c.size, d, q, selectors, labels, sigmas, perm, s, Cs, Ss, scheme⟩,
    preprocess_eq_ok_iff.2 ?_⟩
  exact {
    capacity := Nat.not_lt.2 hcapacity
    domain := hd
    quotientDomain := hq
    finerGenerator := hroot
    shifters := hs
    selectors := hselectors
    selectorCommitments := hCs
    permutation := hperm
    labels := ⟨positions, (Shifters.labels_eq_ok_iff hlt).2 rfl, rfl⟩
    sigmas := hsigmas
    sigmaCommitments := hSs
    size := rfl
    scheme := rfl }

/-- With room for the domains, an error of the permutation is one of preprocessing. -/
theorem preprocess_eq_error {c : Circuit} {scheme : Scheme G₁ G₂} {e : Fault}
    (hcapacity : cosetCount * c.domainSize ≤ scheme.maxDegree + 1)
    (hlog : c.domainLog + rowDepth ≤ maxLog) (hperm : c.permutation c.domainSize = .error e) :
    c.preprocess scheme = .error e := by
  obtain ⟨d, q, s, selectors, Cs, -, -, hd, hq, hroot, hs, hselectors, hCs⟩ :=
    setup_isOk hcapacity hlog
  simp only [preprocess, require_eq_error_iff, bind_eq_error_iff, lift_eq_ok_iff]
  exact .inr ⟨Nat.not_lt.2 hcapacity, .inr ⟨d, hd, .inr ⟨q, hq, .inr ⟨not_not.2 hroot, .inr ⟨s, hs,
    .inr ⟨selectors, hselectors, .inr ⟨Cs, hCs, .inl hperm⟩⟩⟩⟩⟩⟩⟩

end

/-! ### A small circuit -/

/-- The circuit of one variable that is its own square. -/
def bit : Circuit := ⟨[.mul 1 1 1], [], 2⟩

/-- There are public data for it. The three wires of the gate are joined to a cycle, and so are
those of the row that pads. -/
theorem bit_preprocess_isOk {G₁ G₂ : Type} [SMul Scalar G₁] [Zero G₁] [Add G₁]
    {scheme : Scheme G₁ G₂} (hcapacity : cosetCount * bit.domainSize ≤ scheme.maxDegree + 1) :
    ∃ pd, bit.preprocess scheme = .ok pd ∧
      pd.domain.size = 2 ∧ pd.permutation = [2, 3, 4, 5, 0, 1] ∧
      ∀ p, pd.shifters.labelOf pd.domain p =
        [1, .ofNat 5, .ofNat 25].getD (p / 2) 0 * (-1) ^ (p % 2) := by
  obtain ⟨pd, hpd⟩ := preprocess_isOk hcapacity (by decide) (by decide) (by decide)
  have h := describes_of_preprocess hpd
  have hsize : pd.domain.size = 2 := h.domainSize
  have hgenerator : pd.domain.generator = -1 := by
    have hprimitive := pd.domain.generator_primitive
    rw [hsize] at hprimitive
    exact hprimitive.eq_neg_one_of_two_right
  refine ⟨pd, hpd, hsize, h.permutation.trans (by decide), ?_⟩
  intro p
  rw [Shifters.labelOf, h.shifters, hsize, hgenerator]
  rfl

/-- The one-gate circuit is preprocessed over the curve groups. -/
theorem preprocess_bit : ∃ pd : Preprocessed G1 G2, bit.preprocess (.ofSecret 7 1) = .ok pd ∧
    pd.domain.size = 2 ∧ pd.permutation = [2, 3, 4, 5, 0, 1] ∧
    ∀ p, pd.shifters.labelOf pd.domain p =
      [1, .ofNat 5, .ofNat 25].getD (p / 2) 0 * (-1) ^ (p % 2) := by
  apply bit_preprocess_isOk
  rw [Scheme.maxDegree_ofSecret]
  decide

/-- Columns for it: values on the wires of the gate, zero on the row that pads. -/
def bitColumns (l r o : Scalar) : Wires (List Scalar) := ⟨[l, 0], [r, 0], [o, 0]⟩

theorem bitColumns_hasLength {n : Nat} (h : n = 2) (l r o : Scalar) :
    (bitColumns l r o).HasLength n := by
  subst h
  exact ⟨rfl, rfl, rfl⟩

end Circuit

end PlonkKzg
