import PlonkKzg.Proofs.Commitment.Exponents

/-!
# Which openings are accepted

An opening that was made is accepted with the values of the polynomials, and in the groups of prime
order with no others; of several polynomials the verifier checks the weighted sum of the values.

* `Scheme.verifyOpening_openAt`, `Scheme.verifyBatch_batchOpenAt` — openings are accepted;
* `Scheme.verifyOpening_eq_ok_iff`, `Scheme.verifyBatch_eq_ok_iff` — with which values they are;
* `Scheme.ofSecret_acceptance` — the verifier in full, and both in terms of the values;
* `Scheme.exponents_acceptance` — in the scalars as groups.
-/

namespace PlonkKzg

open PlonkKzg.Poly

/-- Two weighted sums are equal if and only if that of the differences is zero. -/
theorem weighted_mul_eq_iff {v : Scalar} {as bs : List Scalar} (h : as.length = bs.length) :
    weighted (· * ·) v as = weighted (· * ·) v bs ↔
      ∑ i ∈ Finset.range bs.length, v ^ i * (as.getD i 0 - bs.getD i 0) = 0 := by
  simp only [weighted_mul_eq_sum, h, mul_sub, Finset.sum_sub_distrib, sub_eq_zero]

namespace Scheme

/-! ### Openings that were made -/

section

variable {G₁ G₂ : Type} [AddCommGroup G₁] [Module Scalar G₁] [SMul Scalar G₂] [Generator G₁]
  [Generator G₂] {d : Nat} {s : Scalar}

/-- Several commitments are several values at the secret. -/
theorem mapM_commit_ofSecret_eq_ok {ps : List Poly} {Cs : List G₁}
    (h : ps.mapM (ofSecret d s : Scheme G₁ G₂).commit = .ok Cs) :
    Cs = (ps.map (·.eval s)).map (· • (Generator.generator : G₁)) := by
  have hcommit : ∀ p ∈ ps, (ofSecret d s : Scheme G₁ G₂).commit p =
      .ok (p.eval s • Generator.generator) := by
    intro p hp
    obtain ⟨C, hC⟩ := exists_eq_ok_of_mapM_eq_ok h p hp
    rw [hC, (commit_ofSecret_eq_ok_iff.1 hC).2.2]
  rw [mapM_eq_ok_map hcommit, Except.ok.injEq] at h
  rw [← h, List.map_map]
  rfl

/-- The weighted sum of the commitments is the commitment to the weighted sum. -/
theorem weighted_commitments {ps : List Poly} {Cs : List G₁}
    (h : ps.mapM (ofSecret d s : Scheme G₁ G₂).commit = .ok Cs) (v : Scalar) :
    weighted (· • ·) v Cs = (weighted scale v ps).eval s • (Generator.generator : G₁) := by
  rw [mapM_commit_ofSecret_eq_ok h, weighted_smul_map, eval_weighted]

theorem mapM_commit_ofSecret_length {ps : List Poly} {Cs : List G₁}
    (h : ps.mapM (ofSecret d s : Scheme G₁ G₂).commit = .ok Cs) : Cs.length = ps.length := by
  rw [mapM_commit_ofSecret_eq_ok h, List.length_map, List.length_map]

/-- Several commitments are checked like the one to the weighted sum. -/
theorem verifyBatch_eq_verify {Gₜ : Type} [Pairing G₁ G₂ Gₜ] [Zero Gₜ] [Add Gₜ] [DecidableEq Gₜ]
    {ps : List Poly} {Cs : List G₁} (hCs : ps.mapM (ofSecret d s : Scheme G₁ G₂).commit = .ok Cs)
    (hne : ps ≠ []) (v : Scalar) {o : BatchOpening G₁} (hlen : o.values.length = ps.length) :
    (ofSecret d s : Scheme G₁ G₂).verifyBatch Cs v o =
      (ofSecret d s : Scheme G₁ G₂).verify ((weighted scale v ps).eval s • Generator.generator)
        o.point (weighted (· * ·) v o.values) o.witness := by
  have hcount := mapM_commit_ofSecret_length hCs
  have hsome : Cs ≠ [] := by
    rw [← List.length_pos_iff, hcount]
    exact List.length_pos_iff.2 hne
  rw [verifyBatch, if_neg (by simp [hsome, hcount, hlen]), weighted_commitments hCs]

end

variable {G₁ G₂ Gₜ : Type} [AddCommGroup G₁] [Module Scalar G₁] [AddCommGroup G₂] [Module Scalar G₂]
  [AddCommGroup Gₜ] [Module Scalar Gₜ] [DecidableEq Gₜ] [Generator G₁] [Generator G₂]
  [Pairing G₁ G₂ Gₜ] [Pairing.Bilinear G₁ G₂ Gₜ] {d : Nat} {s x v : Scalar}

section

/-- A witness shows the value that it accounts for. -/
theorem verify_exponents {a b k : Scalar} (h : a - b = (s - x) * k) :
    (ofSecret d s : Scheme G₁ G₂).verify (a • Generator.generator) x b
      (k • Generator.generator) = .ok () := by
  refine verify_ofSecret_of_eq ?_
  rw [← sub_smul, h, mul_smul]

/-- An honest opening is accepted. -/
theorem verifyOpening_openAt {p : Poly} {C : G₁} {o : Opening G₁}
    (hC : (ofSecret d s : Scheme G₁ G₂).commit p = .ok C)
    (ho : (ofSecret d s : Scheme G₁ G₂).openAt x p = .ok o) :
    (ofSecret d s : Scheme G₁ G₂).verifyOpening C o = .ok () := by
  obtain ⟨-, -, rfl⟩ := commit_ofSecret_eq_ok_iff.1 hC
  obtain ⟨hW, hpoint, hvalue⟩ := openAt_eq_ok_iff.1 ho
  obtain ⟨k, hk, heq⟩ := prove_ofSecret_eq_ok hW
  rw [verifyOpening, hpoint, hvalue, hk]
  exact verify_exponents heq

/-- An honest batch opening is accepted. -/
theorem verifyBatch_batchOpenAt {ps : List Poly} {Cs : List G₁} {o : BatchOpening G₁}
    (hCs : ps.mapM (ofSecret d s : Scheme G₁ G₂).commit = .ok Cs)
    (ho : (ofSecret d s : Scheme G₁ G₂).batchOpenAt x v ps = .ok o) :
    (ofSecret d s : Scheme G₁ G₂).verifyBatch Cs v o = .ok () := by
  obtain ⟨hne, hW, hpoint, hvalues⟩ := batchOpenAt_eq_ok_iff.1 ho
  obtain ⟨k, hk, heq⟩ := prove_ofSecret_eq_ok hW
  have hlen : o.values.length = ps.length := by rw [hvalues, List.length_map]
  rw [verifyBatch_eq_verify hCs hne v hlen, hpoint, hvalues, hk, ← eval_weighted]
  exact verify_exponents heq

end

/-! ### The values that are accepted -/

section

variable [PrimeOrder G₁] [PrimeOrder G₂] [Pairing.Nondegenerate G₁ G₂ Gₜ]

/-- Against known exponents, only the right value is accepted. -/
theorem verify_exponents_eq_ok_iff {a b k y : Scalar} (h : a - b = (s - x) * k) :
    (ofSecret d s : Scheme G₁ G₂).verify (a • Generator.generator) x y
      (k • Generator.generator) = .ok () ↔ y = b := by
  have hinjective := smul_left_injective Scalar (PrimeOrder.generator_ne_zero (G := G₁))
  rw [verify_ofSecret_eq_ok_iff, ← sub_smul, ← mul_smul, ← h, hinjective.eq_iff, sub_right_inj]

/-- Of all values put into an honest opening, only the evaluation is accepted. -/
theorem verifyOpening_eq_ok_iff {p : Poly} {C : G₁} {o : Opening G₁}
    (hC : (ofSecret d s : Scheme G₁ G₂).commit p = .ok C)
    (ho : (ofSecret d s : Scheme G₁ G₂).openAt x p = .ok o) {y : Scalar} :
    (ofSecret d s : Scheme G₁ G₂).verifyOpening C ⟨x, y, o.witness⟩ = .ok () ↔ y = p.eval x := by
  obtain ⟨-, -, rfl⟩ := commit_ofSecret_eq_ok_iff.1 hC
  obtain ⟨hW, -, -⟩ := openAt_eq_ok_iff.1 ho
  obtain ⟨k, hk, heq⟩ := prove_ofSecret_eq_ok hW
  rw [verifyOpening, hk]
  exact verify_exponents_eq_ok_iff heq

/-- A batch is accepted exactly when the weighted sum of its values is the right one. -/
theorem verifyBatch_eq_ok_iff {ps : List Poly} {Cs : List G₁} {o : BatchOpening G₁}
    (hCs : ps.mapM (ofSecret d s : Scheme G₁ G₂).commit = .ok Cs)
    (ho : (ofSecret d s : Scheme G₁ G₂).batchOpenAt x v ps = .ok o) {ys : List Scalar}
    (hys : ys.length = ps.length) :
    (ofSecret d s : Scheme G₁ G₂).verifyBatch Cs v ⟨x, ys, o.witness⟩ = .ok () ↔
      weighted (· * ·) v ys = weighted (· * ·) v (ps.map (·.eval x)) := by
  obtain ⟨hne, hW, -, -⟩ := batchOpenAt_eq_ok_iff.1 ho
  obtain ⟨k, hk, heq⟩ := prove_ofSecret_eq_ok hW
  rw [verifyBatch_eq_verify hCs hne v hys, hk, ← eval_weighted]
  exact verify_exponents_eq_ok_iff heq

/-- The verifier accepts a witness if and only if it satisfies one equation in the group. The
witness of an opening is accepted with the value of the polynomial alone, and that of an opening of
several polynomials with all values whose weighted errors cancel. -/
theorem ofSecret_acceptance (d : Nat) (s : Scalar) :
    (∀ (C W : G₁) (x y : Scalar),
      ((ofSecret d s : Scheme G₁ G₂).verify C x y W = .ok () ↔
        C - y • Generator.generator = (s - x) • W) ∧
      (C - y • Generator.generator ≠ (s - x) • W →
        (ofSecret d s : Scheme G₁ G₂).verify C x y W = .error .commitment)) ∧
    (∀ p : Poly, p.coefs ≠ [] → p.coefs.length ≤ d + 1 → ∀ x : Scalar,
      ∃ C o, (ofSecret d s : Scheme G₁ G₂).commit p = .ok C ∧
        (ofSecret d s : Scheme G₁ G₂).openAt x p = .ok o ∧
        ∀ y, (ofSecret d s : Scheme G₁ G₂).verifyOpening C ⟨x, y, o.witness⟩ = .ok () ↔
          y = p.eval x) ∧
    ∀ ps : List Poly, ps ≠ [] → (∀ p ∈ ps, p.coefs ≠ [] ∧ p.coefs.length ≤ d + 1) →
      ∀ x v : Scalar, ∃ Cs o, ps.mapM (ofSecret d s : Scheme G₁ G₂).commit = .ok Cs ∧
        (ofSecret d s : Scheme G₁ G₂).batchOpenAt x v ps = .ok o ∧
        ∀ ys : List Scalar, ys.length = ps.length →
          ((ofSecret d s : Scheme G₁ G₂).verifyBatch Cs v ⟨x, ys, o.witness⟩ = .ok () ↔
            ∑ i ∈ Finset.range ps.length, v ^ i * (ys.getD i 0 - (ps.getD i 0).eval x) = 0) := by
  have hparameters : (ofSecret d s : Scheme G₁ G₂).g1.length = d + 1 := powers_length ..
  refine ⟨fun C W x y => ⟨verify_ofSecret_eq_ok_iff, verify_ofSecret_of_ne⟩, ?_, ?_⟩
  · intro p hne hle x
    have hle : p.coefs.length ≤ (ofSecret d s : Scheme G₁ G₂).g1.length := hparameters ▸ hle
    obtain ⟨C, hC⟩ := commit_isOk hne hle
    obtain ⟨o, ho⟩ := openAt_isOk hne hle x
    exact ⟨C, o, hC, ho, fun y => verifyOpening_eq_ok_iff hC ho⟩
  · intro ps hps hall x v
    have hcommit : ∀ p ∈ ps, (ofSecret d s : Scheme G₁ G₂).commit p =
        .ok (p.eval s • Generator.generator) := fun p hp =>
      commit_ofSecret_eq_ok_iff.2 ⟨(hall p hp).1, (hall p hp).2, rfl⟩
    obtain ⟨o, ho⟩ := batchOpenAt_isOk (s := (ofSecret d s : Scheme G₁ G₂)) hps (by omega)
      (fun p hp => hparameters ▸ (hall p hp).2) x v
    refine ⟨_, o, mapM_eq_ok_map hcommit, ho, ?_⟩
    intro ys hys
    have hlen : ys.length = (ps.map (·.eval x)).length := by rwa [List.length_map]
    -- Beyond the end of the list both are zero, the right one as a value of the zero polynomial.
    have hvalues : ∀ i, (ps.map (·.eval x)).getD i 0 = (ps.getD i 0).eval x := by
      intro i
      rw [← eval_zero x, List.getD_map]
    rw [verifyBatch_eq_ok_iff (mapM_eq_ok_map hcommit) ho hys, weighted_mul_eq_iff hlen]
    simp only [hvalues, List.length_map]

/-- The secret is three, and `1 + X ^ 2` is opened at one, by itself and with `X`. -/
theorem exponents_acceptance :
    let scheme : Scheme Scalar Scalar := ofSecret 2 (.ofNat 3)
    let p : Poly := ⟨[1, 0, 1]⟩
    let q : Poly := ⟨[0, 1]⟩
    scheme.verify (.ofNat 10) 1 (.ofNat 2) (.ofNat 4) = .ok () ∧
    scheme.verify (.ofNat 10) 1 (.ofNat 3) (.ofNat 4) = .error .commitment ∧
    (∃ C o, scheme.commit p = .ok C ∧ scheme.openAt 1 p = .ok o ∧
      ∀ y, scheme.verifyOpening C ⟨1, y, o.witness⟩ = .ok () ↔ y = p.eval 1) ∧
    ∃ Cs o, [p, q].mapM scheme.commit = .ok Cs ∧ scheme.batchOpenAt 1 (.ofNat 2) [p, q] = .ok o ∧
      ∀ ys : List Scalar, ys.length = 2 →
        (scheme.verifyBatch Cs (.ofNat 2) ⟨1, ys, o.witness⟩ = .ok () ↔
          ∑ i ∈ Finset.range 2,
            Scalar.ofNat 2 ^ i * (ys.getD i 0 - ([p, q].getD i 0).eval 1) = 0) := by
  intro scheme p q
  have hshort : ∀ r ∈ [p, q], r.coefs ≠ [] ∧ r.coefs.length ≤ 2 + 1 := by decide
  exact ⟨((ofSecret_acceptance 2 _).1 _ _ _ _).1.2 (by decide),
    ((ofSecret_acceptance 2 _).1 _ _ _ _).2 (by decide),
    (ofSecret_acceptance 2 _).2.1 _ (by decide) (by decide) 1,
    (ofSecret_acceptance 2 _).2.2 _ (by decide) hshort 1 _⟩

end

end Scheme

end PlonkKzg
