import PlonkKzg.Proofs.Commitment.Exponents
import PlonkKzg.Proofs.Curve.Order
import PlonkKzg.Proofs.Domain.Lagrange
import PlonkKzg.Proofs.Prover.Dialogue
import PlonkKzg.Proofs.Prover.Identity

/-!
# Proofs on zeros

Zeros satisfy every circuit whose gates have no constant. The polynomials of the wires and the
quotient are zero then, so a proof tells nothing but the accumulator. If in addition the next
positions of each row lie in the same row, then the accumulator stays one, and all that the prover
says to its transcript is known before it draws anything.

* `Domain.interpolate_replicate` — the polynomial of a constant column;
* `Circuit.ConstantFree`, `Circuit.Describes.quotient_of_zeros` — the quotient is zero;
* `Circuit.Describes.proof_of_zeros` — what a proof holds;
* `Preprocessed.RowWise`, `Circuit.Describes.prove_zeros` — a run on a transcript, for given draws;
* `Preprocessed.commitments_ofSecret` — the commitments that a transcript hears of first;
* `Circuit.bit_prove` — one run from its beginning to its end.
-/

namespace PlonkKzg

open PlonkKzg.Poly Polynomial Preprocessed

/-! ### Constant columns -/

theorem Poly.singleton_trimmed (a : Scalar) : (⟨[a]⟩ : Poly).Trimmed :=
  ⟨List.cons_ne_nil a [], .inl rfl⟩

theorem Poly.eval_singleton (a x : Scalar) : (⟨[a]⟩ : Poly).eval x = a := by
  show evalCoefs [a] x = a
  rw [evalCoefs_cons, evalCoefs, List.foldr_nil, zero_mul, zero_add]

namespace Domain

/-- A constant column interpolates to the constant. -/
theorem interpolate_replicate (d : Domain) (a : Scalar) :
    d.interpolate (List.replicate d.size a) = .ok ⟨[a]⟩ := by
  refine interpolate_eq_ok_iff.2 ⟨singleton_trimmed a, ?_, ?_⟩
  · rw [elements_length]
    exact d.size_pos
  · have hconst : (⟨[a]⟩ : Poly).eval = fun _ => a := funext (eval_singleton a)
    rw [hconst, List.map_const', elements_length]

end Domain

/-! ### The polynomials of zeros -/

namespace Circuit

/-- No gate has a constant. -/
def ConstantFree (c : Circuit) : Prop := ∀ g ∈ c.rows, g.selectors.qk = 0

instance (c : Circuit) : Decidable c.ConstantFree :=
  List.decidableBAll (fun g : Gate => g.selectors.qk = 0) c.rows

theorem valueOf_zeros (k : Nat) (v : Variable) : valueOf (List.replicate k 0) v = 0 := by
  rw [valueOf, List.getD_eq_getElem?_getD, List.getElem?_replicate]
  split <;> rfl

theorem layout_zeros {c : Circuit} {n : Nat} (h : c.size ≤ n) (k : Nat) :
    c.layout (List.replicate k 0) n =
      ⟨List.replicate n 0, List.replicate n 0, List.replicate n 0⟩ := by
  have hvalues : valueOf (List.replicate k 0) = fun _ => 0 := funext (valueOf_zeros k)
  have hsize : c.rows.length + (n - c.size) = n := by
    rw [rows_length]
    omega
  simp only [layout, Wires.columns, Wires.map, hvalues, List.map_const', List.map_replicate,
    List.replicate_append_replicate, hsize]

/-- Without constants the column of constants is zero, padding included. -/
theorem ConstantFree.qk_column {c : Circuit} (hfree : c.ConstantFree) {n : Nat} (h : c.size ≤ n) :
    (c.selectorColumns n).qk = List.replicate n 0 := by
  have hqk : c.rows.map (·.selectors.qk) = List.replicate c.size 0 := by
    refine List.eq_replicate_iff.2 ⟨by rw [List.length_map, rows_length], fun a ha => ?_⟩
    obtain ⟨g, hg, rfl⟩ := List.mem_map.1 ha
    exact hfree g hg
  simp only [selectorColumns, Selectors.columns, Selectors.map, List.map_map, Function.comp_def]
  rw [hqk, List.replicate_append_replicate, Nat.add_sub_cancel' h]

/-- Without constants the zero assignment satisfies every gate. -/
theorem ConstantFree.eval_zeros {c : Circuit} (hfree : c.ConstantFree) {k : Nat}
    (h : c.Assigned (List.replicate k 0)) : ∀ g ∈ c.rows, g.eval (List.replicate k 0) = .ok 0 := by
  intro g hg
  refine eval_eq_ok_iff.2 ⟨h g hg, ?_⟩
  simp only [gateValue, Wires.map, valueOf_zeros, hfree g hg, mul_zero, add_zero]

namespace Describes

section

variable {G₁ G₂ : Type} {c : Circuit} {scheme : Scheme G₁ G₂} {pd : Preprocessed G₁ G₂}
  (h : c.Describes scheme pd) (hfree : c.ConstantFree)
include h hfree

theorem selectors_qk : pd.selectors.qk = ⟨[0]⟩ := by
  obtain ⟨-, -, -, -, hqk⟩ := Selectors.mapM_eq_ok_iff.1 h.selectors
  rw [hfree.qk_column c.size_le_domainSize, ← h.domainSize, Domain.interpolate_replicate] at hqk
  exact (Except.ok.inj hqk).symm

/-- Both equations are zero, whatever the accumulator is. -/
theorem combined_of_zeros (z zNext : Poly) (gamma alpha : Scalar) :
    pd.combined ⟨⟨⟨[0]⟩, ⟨[0]⟩, ⟨[0]⟩⟩, z, zNext⟩ gamma alpha = 0 := by
  have hzero : (⟨[0]⟩ : Poly).toPolynomial = 0 := toPolynomial_zero
  simp only [combined, gatePolynomial, orderingPolynomial, h.selectors_qk hfree, hzero, mul_zero,
    add_zero]

end

section

variable {G₁ G₂ : Type} [SMul Scalar G₁] [Zero G₁] [Add G₁] {c : Circuit} {scheme : Scheme G₁ G₂}
  {pd : Preprocessed G₁ G₂} (h : c.Describes scheme pd)
include h

/-- The rounds of a proof leave the polynomials of the assignment and of its accumulator, and no
denominator is zero. -/
theorem interpolates_of_proves {w : List Scalar} {ch : Challenges} {R : Rounds G₁} {P : Proof G₁}
    (hP : pd.Proves c w ch R P) :
    c.Assigned w ∧
      (∀ i < pd.domain.size, pd.denominator (c.layout w pd.domain.size) ch.gamma i ≠ 0) ∧
      Trace.Interpolates ⟨R.wires.polys, R.accumulator.poly, R.accumulator.polyNext⟩ pd.domain
        (c.layout w pd.domain.size)
        (pd.accumulatedColumn (c.layout w pd.domain.size) ch.gamma) := by
  have hwires := hP.wires
  have haccumulator := hP.accumulator
  simp only [wireRound, bind_eq_ok_iff, lift_eq_ok_iff, pure_eq_ok_iff] at hwires
  obtain ⟨_, hcolumns, polys, hpolys, Cs, -, hR⟩ := hwires
  obtain ⟨-, -, -, hassigned, rfl⟩ := wireColumns_eq_ok_iff.1 hcolumns
  rw [← hR] at haccumulator ⊢
  simp only [accumulatorRound, bind_eq_ok_iff, lift_eq_ok_iff, pure_eq_ok_iff] at haccumulator
  obtain ⟨_, hz, p, hp, next, hnext, C, -, hR⟩ := haccumulator
  obtain ⟨-, hden, rfl⟩ := (accumulator_eq_ok_iff h.labelLength).1 hz
  rw [← hR]
  exact ⟨hassigned, hden, hpolys, hnext, hp⟩

/-- The quotient of an assignment of zeros is zero. -/
theorem quotient_of_zeros (hfree : c.ConstantFree) {k : Nat} {ch : Challenges} {R : Rounds G₁}
    {P : Proof G₁} (hP : pd.Proves c (List.replicate k 0) ch R P) :
    R.wires.polys = ⟨⟨[0]⟩, ⟨[0]⟩, ⟨[0]⟩⟩ ∧ R.quotient.toPolynomial = 0 := by
  obtain ⟨hassigned, hden, ht⟩ := h.interpolates_of_proves hP
  have hpolys := ht.wires
  rw [layout_zeros h.size_le, Wires.mapM_eq_ok_iff] at hpolys
  simp only [Domain.interpolate_replicate, Except.ok.injEq] at hpolys
  obtain ⟨hl, hr, ho⟩ := hpolys
  have hzeros : R.wires.polys = ⟨⟨[0]⟩, ⟨[0]⟩, ⟨[0]⟩⟩ := Wires.ext hl.symm hr.symm ho.symm
  have hexact := (h.mul_vanishing_layout_iff ht hden hassigned hP.quotient).2
    (hfree.eval_zeros hassigned)
  rw [hzeros, h.combined_of_zeros hfree] at hexact
  exact ⟨hzeros, (mul_eq_zero.1 hexact).resolve_right pd.domain.vanishing_monic.ne_zero⟩

end

section

variable {G₁ G₂ : Type} [AddCommGroup G₁] [Module Scalar G₁] [SMul Scalar G₂] [Generator G₁]
  [Generator G₂] [Encoded G₁] {c : Circuit} {d : Nat} {s : Scalar} {pd : Preprocessed G₁ G₂}
  (h : c.Describes (.ofSecret d s) pd)
include h

/-- A proof on zeros holds the accumulator, and apart from it zeros. -/
theorem proof_of_zeros (hfree : c.ConstantFree) {k : Nat} {ch : Challenges} {P : Proof G₁}
    (hP : pd.proveWith c (List.replicate k 0) ch = .ok P) : ∃ z : Poly,
      pd.domain.interpolate (pd.accumulatedColumn
        (c.layout (List.replicate k 0) pd.domain.size) ch.gamma) = .ok z ∧
      P.commitments = ⟨⟨0, 0, 0⟩, 0, z.eval s • Generator.generator⟩ ∧
      P.values = ⟨⟨0, 0, 0⟩, 0, z.eval ch.zeta⟩ ∧
      P.zNext = z.eval (ch.zeta * pd.domain.generator) := by
  obtain ⟨R, hR⟩ := proveWith_eq_ok_iff.1 hP
  obtain ⟨hpolys, hquotient⟩ := h.quotient_of_zeros hfree hR
  have hq : ∀ x, R.quotient.eval x = 0 := by
    intro x
    rw [← eval_toPolynomial, hquotient, Polynomial.eval_zero]
  have hwires := hR.commit_wires
  have hcommit := commit_eq_ok_iff.1 hR.quotientCommitment
  have haccumulator := hR.commit_accumulator
  rw [h.scheme] at hwires hcommit haccumulator
  rw [hpolys, Wires.mapM_eq_ok_iff] at hwires
  simp only [Scheme.commit_ofSecret_eq_ok_iff, eval_singleton, hq, zero_smul]
    at hwires hcommit haccumulator
  obtain ⟨⟨-, -, hl⟩, ⟨-, -, hr⟩, -, -, ho⟩ := hwires
  refine ⟨R.accumulator.poly, (h.interpolates_of_proves hR).2.2.z, ?_, ?_, hR.zNext⟩
  · exact Committed.ext (Wires.ext hl hr ho) hcommit.2.2 haccumulator.2.2
  · rw [hR.values, Rounds.polys, hpolys]
    simp only [Committed.map, Wires.map, eval_singleton, hq]

end

end Describes

end Circuit

/-! ### Rows that are joined to themselves -/

/-- The next positions of each row are the positions of that row. -/
def Preprocessed.RowWise {G₁ G₂ : Type} (pd : Preprocessed G₁ G₂) : Prop :=
  ∀ i < pd.domain.size,
    (pd.labels.atRow i).toList.Perm (pd.shifters.rowLabels (pd.domain.generator ^ i)).toList

/-- The factor of a row whose three values are equal. -/
theorem rowFactor_constant (gamma a : Scalar) (labels : Wires Scalar) :
    rowFactor gamma ⟨a, a, a⟩ labels = (labels.toList.map (a + gamma + ·)).prod := by
  simp only [rowFactor, Wires.toList, List.map_cons, List.map_nil, List.prod_cons, List.prod_nil,
    mul_one, mul_assoc]

/-- On a constant assignment their numerators are their denominators. -/
theorem Preprocessed.RowWise.accumulatedColumn_eq {G₁ G₂ : Type} {pd : Preprocessed G₁ G₂}
    (hrows : pd.RowWise) {columns : Wires (List Scalar)} {gamma a : Scalar}
    (hcolumns : ∀ i < pd.domain.size, columns.atRow i = ⟨a, a, a⟩)
    (hden : ∀ i < pd.domain.size, pd.denominator columns gamma i ≠ 0) :
    pd.accumulatedColumn columns gamma = List.replicate pd.domain.size 1 := by
  have hquotient : ∀ i < pd.domain.size,
      pd.numerator columns gamma i * (pd.denominator columns gamma i)⁻¹ = 1 := by
    intro i hi
    have hsame : pd.numerator columns gamma i = pd.denominator columns gamma i := by
      rw [numerator, denominator, hcolumns i hi, rowFactor_constant, rowFactor_constant]
      exact ((hrows i hi).map _).prod_eq.symm
    rw [hsame, mul_inv_cancel₀ (hden i hi)]
  refine List.eq_replicate_iff.2 ⟨pd.accumulatedColumn_length columns gamma, fun z hz => ?_⟩
  obtain ⟨i, hi, rfl⟩ := List.mem_map.1 hz
  refine Finset.prod_eq_one fun j hj => hquotient j ?_
  exact (Finset.mem_range.1 hj).trans (List.mem_range.1 hi)

/-- A first draw outside the domain is the challenge. -/
theorem Transcript.isChallenge_first {order : Nat} {label : List UInt8} {t : Transcript}
    (h : (t.challenge label).1 ^ order ≠ 1) :
    t.IsChallenge order label 0 (t.challenge label).1 :=
  ⟨rfl, h, fun j hj => absurd hj (Nat.not_lt_zero j)⟩

/-- The requests for a proof on zeros whose accumulator stays one. -/
def zeroRequests (G : Type) [Zero G] [Generator G] [Encoded G] : List Request :=
  [⟨.gamma, [.element (0 : G), .element (0 : G), .element (0 : G)]⟩,
    ⟨.alpha, [.element (Generator.generator : G)]⟩,
    ⟨.zeta, [.element (0 : G)]⟩,
    ⟨.bundle, [.scalar 0, .scalar 0, .scalar 0, .scalar 0, .scalar 1, .scalar 1]⟩]

namespace Circuit

section

variable {G₁ G₂ : Type} [AddCommGroup G₁] [Module Scalar G₁] [SMul Scalar G₂] [Generator G₁]
  [Generator G₂] [Encoded G₁] {c : Circuit} {d : Nat} {s : Scalar} {pd : Preprocessed G₁ G₂}
  (h : c.Describes (.ofSecret d s) pd) (hfree : c.ConstantFree) (hrows : pd.RowWise) {k : Nat}
include h hfree hrows

/-- What the prover of a constant-free circuit says on the zero assignment. -/
theorem Describes.requests_of_zeros {ch : Challenges} {P : Proof G₁}
    (hP : pd.proveWith c (List.replicate k 0) ch = .ok P) : P.requests = zeroRequests G₁ := by
  obtain ⟨z, hz, hcommitments, hvalues, hnext⟩ := h.proof_of_zeros hfree hP
  obtain ⟨R, hR⟩ := proveWith_eq_ok_iff.1 hP
  obtain ⟨-, hden, -⟩ := h.interpolates_of_proves hR
  have hcolumns : ∀ i < pd.domain.size,
      (c.layout (List.replicate k 0) pd.domain.size).atRow i = ⟨0, 0, 0⟩ := by
    intro i hi
    rw [atRow_layout hi, rowValues]
    simp only [Wires.map, valueOf_zeros]
  rw [hrows.accumulatedColumn_eq hcolumns hden, Domain.interpolate_replicate, Except.ok.injEq] at hz
  subst hz
  rw [eval_singleton] at hcommitments hvalues hnext
  rw [one_smul] at hcommitments
  simp only [Proof.requests, hcommitments, hvalues, hnext, Committed.toList, Wires.toList,
    zeroRequests, List.map_cons, List.map_nil, List.cons_append, List.nil_append]

/-- A run on zeros: the prover says what is known before, and it gives a proof with the challenges
that are drawn from that, unless a denominator is zero. -/
theorem Describes.prove_zeros (hlen : c.varCount.toNat ≤ k) {t : Transcript}
    {draw : Challenge → Scalar} {tries : Challenge → Nat}
    (hdrawn : ∀ k : Challenge, Transcript.IsChallenge pd.domain.size k.label
      (t.afterAll (pd.eventsBefore tries k (zeroRequests G₁))) (tries k) (draw k))
    (hden : ∀ i < pd.domain.size, rowFactor (draw .gamma) ⟨0, 0, 0⟩ (pd.labels.atRow i) ≠ 0) :
    ∃ P, pd.prove c (List.replicate k 0) t =
      .ok (P, t.afterAll (pd.events tries (zeroRequests G₁))) := by
  have hden : ∀ i < pd.domain.size,
      pd.denominator (c.layout (List.replicate k 0) pd.domain.size) (draw .gamma) i ≠ 0 := by
    intro i hi
    rw [denominator_layout c _ hi, rowValues]
    simp only [Wires.map, valueOf_zeros]
    exact hden i hi
  have hlen : c.varCount.toNat ≤ (List.replicate k (0 : Scalar)).length := by
    rwa [List.length_replicate]
  obtain ⟨_, _, -, -, hrun⟩ := h.exists_run hlen hden (draw .alpha)
  obtain ⟨P, hP, -⟩ := hrun (draw .zeta) (draw .bundle)
  have hrequests := h.requests_of_zeros hfree hrows hP
  refine ⟨P, prove_eq_ok_iff_drawn.2 ⟨_, tries, hP, ?_, ?_⟩⟩
  · rw [hrequests]
    intro k
    cases k
    · exact hdrawn .gamma
    · exact hdrawn .alpha
    · exact hdrawn .zeta
    · exact hdrawn .bundle
  · rw [hrequests]

end

/-! ### A run from its beginning -/

section

variable (G₁ G₂ : Type) [AddCommGroup G₁] [Module Scalar G₁] [SMul Scalar G₂] [Generator G₁]
  [Generator G₂] {c : Circuit} {d : Nat} {s : Scalar} {pd : Preprocessed G₁ G₂}

/-- The commitments of a circuit are the values of its polynomials at the secret. -/
theorem commitments_ofSecret (hpd : c.preprocess (.ofSecret d s) = .ok pd) :
    pd.selectorCommitments = pd.selectors.map (·.eval s • Generator.generator) ∧
      pd.sigmaCommitments = pd.sigmas.map (·.eval s • Generator.generator) := by
  have hsteps := preprocess_eq_ok_iff.1 hpd
  have hselectors := hsteps.selectorCommitments
  have hsigmas := hsteps.sigmaCommitments
  simp only [Selectors.mapM_eq_ok_iff, Wires.mapM_eq_ok_iff, Scheme.commit_ofSecret_eq_ok_iff]
    at hselectors hsigmas
  obtain ⟨⟨-, -, hql⟩, ⟨-, -, hqr⟩, ⟨-, -, hqm⟩, ⟨-, -, hqo⟩, -, -, hqk⟩ := hselectors
  obtain ⟨⟨-, -, hl⟩, ⟨-, -, hr⟩, -, -, ho⟩ := hsigmas
  exact ⟨Selectors.ext hql hqr hqm hqo hqk, Wires.ext hl hr ho⟩

/-- With the secret one they are the values on the first row. -/
theorem commitments_ofSecret_one (hs : s = 1) (hpd : c.preprocess (.ofSecret d s) = .ok pd) :
    pd.selectorCommitments = (c.rowSelectors 0).map (· • Generator.generator) ∧
      pd.sigmaCommitments = (pd.labels.atRow 0).map (· • Generator.generator) := by
  have h := describes_of_preprocess hpd
  obtain ⟨hselectors, hsigmas⟩ := commitments_ofSecret G₁ G₂ hpd
  rw [hselectors, hsigmas, hs, ← h.eval_selectors pd.domain.size_pos,
    ← Wires.eval_of_interpolate h.sigmas pd.domain.size_pos, pow_zero]
  exact ⟨rfl, rfl⟩

end

/-- What a transcript hears of the circuit of a bit, with the secret one. -/
def bitPreamble : List Message :=
  [.labelled "New Domain" (utf8 "PLONK"), .word "CS size" 1,
    .labelled "field size" Scalar.orderBytes] ++
  ([0, 0, 1, -1, 0, .ofNat 5, .ofNat 25, 1].map fun a : Scalar => .element (a • G1.generator)) ++
  [.scalar (-1), .scalar (.ofNat 5), .scalar (.ofNat 25)]

/-- The first draw of each challenge from a transcript named after that circuit. -/
def bitDraw (k : Challenge) : Scalar :=
  (((Transcript.new (utf8 "bit")).afterAll
    (bitPreamble.map .said ++ Request.eventsBefore (fun _ => 0) k (zeroRequests G1))).challenge
      k.label).1

/-- The preamble of the one-gate circuit, evaluated. -/
theorem preprocess_bit_preamble : ∃ pd : Preprocessed G1 G2,
    bit.preprocess (.ofSecret 7 1) = .ok pd ∧ pd.domain.size = 2 ∧ pd.preamble = bitPreamble ∧
    pd.RowWise ∧ pd.labels.atRow 0 = ⟨.ofNat 5, .ofNat 25, 1⟩ ∧
    pd.labels.atRow 1 = ⟨-.ofNat 5, -.ofNat 25, -1⟩ := by
  obtain ⟨pd, hpd, hsize, hperm, hlabel⟩ := preprocess_bit
  have h := describes_of_preprocess hpd
  have hfirst : pd.labels.atRow 0 = ⟨.ofNat 5, .ofNat 25, 1⟩ := by
    rw [h.labels_atRow pd.domain.size_pos]
    simp only [hlabel, hperm, hsize, Wires.map]
    decide
  have hsecond : pd.labels.atRow 1 = ⟨-.ofNat 5, -.ofNat 25, -1⟩ := by
    rw [h.labels_atRow (by omega)]
    simp only [hlabel, hperm, hsize, Wires.map]
    decide
  have hgenerator : pd.domain.generator = -1 := by
    have hprimitive := pd.domain.generator_primitive
    rw [hsize] at hprimitive
    exact hprimitive.eq_neg_one_of_two_right
  -- For the numeral 7 unification would unfold the scheme to its list of parameters.
  obtain ⟨d, s, hs, hpd'⟩ : ∃ d s, s = 1 ∧ bit.preprocess (.ofSecret d s) = .ok pd :=
    ⟨7, 1, rfl, hpd⟩
  obtain ⟨hselectors, hsigmas⟩ := commitments_ofSecret_one G1 G2 hs hpd'
  refine ⟨pd, hpd, hsize, ?_, ?_, hfirst, hsecond⟩
  · have hrow : bit.rowSelectors 0 = ⟨0, 0, 1, -1, 0⟩ := by decide
    have hcount : pd.size = 1 := (preprocess_eq_ok_iff.1 hpd).size
    rw [preamble, hcount, hselectors, hsigmas, hfirst, hrow, hgenerator, h.shifters]
    rfl
  · intro i hi
    rw [hsize] at hi
    rw [h.shifters, hgenerator]
    interval_cases i
    · rw [hfirst]
      decide
    · rw [hsecond]
      decide

set_option maxRecDepth 2000 in
/-- All four draws of this run are outside the domain and no denominator vanishes, by evaluation. -/
theorem bitDraw_outside : (bitDraw .gamma ^ 2 ≠ 1 ∧ bitDraw .alpha ^ 2 ≠ 1 ∧
    bitDraw .zeta ^ 2 ≠ 1 ∧ bitDraw .bundle ^ 2 ≠ 1) ∧
    rowFactor (bitDraw .gamma) ⟨0, 0, 0⟩ ⟨.ofNat 5, .ofNat 25, 1⟩ ≠ 0 ∧
    rowFactor (bitDraw .gamma) ⟨0, 0, 0⟩ ⟨-.ofNat 5, -.ofNat 25, -1⟩ ≠ 0 := by
  simp only [← power_eq_pow]
  decide +kernel

/-- A run of the prover on a transcript: the challenges are the first draws, and there is a proof. -/
theorem bit_prove : ∃ (pd : Preprocessed G1 G2) (P : Proof G1) (t' : Transcript),
    bit.preprocess (.ofSecret 7 1) = .ok pd ∧
      pd.prove bit [0, 0] (.new (utf8 "bit")) = .ok (P, t') := by
  obtain ⟨pd, hpd, hsize, hpreamble, hrows, hfirst, hsecond⟩ := preprocess_bit_preamble
  -- Here too the numeral would be unfolded.
  obtain ⟨d, s, hpd'⟩ : ∃ d s, bit.preprocess (.ofSecret d s) = .ok pd := ⟨7, 1, hpd⟩
  have h := describes_of_preprocess hpd'
  obtain ⟨⟨hgamma, halpha, hzeta, hbundle⟩, hdenFirst, hdenSecond⟩ := bitDraw_outside
  have hdrawn : ∀ k : Challenge, Transcript.IsChallenge pd.domain.size k.label
      ((Transcript.new (utf8 "bit")).afterAll
        (pd.eventsBefore (fun _ => 0) k (zeroRequests G1))) 0 (bitDraw k) := by
    intro k
    rw [hsize, eventsBefore, hpreamble]
    refine Transcript.isChallenge_first ?_
    cases k
    · exact hgamma
    · exact halpha
    · exact hzeta
    · exact hbundle
  have hden : ∀ i < pd.domain.size,
      rowFactor (bitDraw .gamma) ⟨0, 0, 0⟩ (pd.labels.atRow i) ≠ 0 := by
    intro i hi
    rw [hsize] at hi
    interval_cases i
    · rw [hfirst]
      exact hdenFirst
    · rw [hsecond]
      exact hdenSecond
  obtain ⟨P, hP⟩ := h.prove_zeros (by decide) hrows (k := 2) (by decide) hdrawn hden
  exact ⟨pd, P, _, hpd, hP⟩

end Circuit

end PlonkKzg
