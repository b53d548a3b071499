import PlonkKzg.Proofs.Commitment.Opening
import PlonkKzg.Proofs.Pairing.Laws
import PlonkKzg.Proofs.Poly.Arithmetic

/-!
# Commitments by their exponents

In the scheme of a secret, a commitment is a multiple of the base point by the value of the
polynomial at the secret. Witnesses are commitments to quotients, so that what the verifier compares
is an equation between scalars.

* `Scheme.setup_run`, `Scheme.setup_eq_ok_iff` — a setup gives the scheme of a secret;
* `Scheme.commit_ofSecret_eq_ok_iff` — what a commitment is, and for which polynomials there is one;
* `Scheme.prove_ofSecret_eq_ok` — what a witness is;
* `map_weighted`, `weighted_mul_eq_sum` — weighted sums under additive maps, and as sums;
* `Scheme.openAt_eq_ok_iff`, `Scheme.batchOpenAt_eq_ok_iff` — the parts of an opening;
* `Scheme.verify_ofSecret_of_eq`, `Scheme.verify_ofSecret_eq_ok_iff` — what the verifier accepts.
-/

namespace PlonkKzg

open PlonkKzg.Poly

/-! ### Weighted sums -/

/-- A map that keeps sums and multiples keeps weighted sums. -/
theorem map_weighted {α β : Type} [Zero α] [Add α] [Zero β] [Add β] {f : α → β}
    {times : Scalar → α → α} {times' : Scalar → β → β} (hzero : f 0 = 0)
    (hadd : ∀ a b, f (a + b) = f a + f b) (htimes : ∀ k a, f (times k a) = times' k (f a))
    (v : Scalar) (as : List α) :
    f (weighted times v as) = weighted times' v (as.map f) := by
  have hsum : ∀ (ks : List Scalar) (bs : List α),
      f (List.zipWith times ks bs).sum = (List.zipWith times' ks (bs.map f)).sum := by
    intro ks bs
    induction bs generalizing ks with
    | nil => simp [hzero]
    | cons b bs ih =>
        cases ks with
        | nil => simp [hzero]
        | cons k ks =>
            rw [List.map_cons, List.zipWith_cons_cons, List.zipWith_cons_cons, List.sum_cons,
              List.sum_cons, hadd, htimes, ih]
  rw [weighted, weighted, hsum, List.length_map]

/-- A weighted sum of scalars is the value of the polynomial that they are the coefficients of. -/
theorem weighted_mul_eq_evalCoefs (v : Scalar) (as : List Scalar) :
    weighted (· * ·) v as = evalCoefs as v := by
  have hsum : ∀ (start : Scalar) (bs : List Scalar),
      (List.zipWith (· * ·) (geometric start v bs.length) bs).sum = start * evalCoefs bs v := by
    intro start bs
    induction bs generalizing start with
    | nil => simp [evalCoefs]
    | cons b bs ih =>
        rw [List.length_cons, geometric, List.zipWith_cons_cons, List.sum_cons, ih, evalCoefs_cons]
        ring
  rw [weighted, hsum, one_mul]

/-- The weighted sum of scalars, written with the powers of the weight. -/
theorem weighted_mul_eq_sum (v : Scalar) (as : List Scalar) :
    weighted (· * ·) v as = ∑ i ∈ Finset.range as.length, v ^ i * as.getD i 0 := by
  rw [weighted_mul_eq_evalCoefs, evalCoefs_eq_sum]
  exact Finset.sum_congr rfl fun i _ => mul_comm _ _

theorem Poly.eval_weighted (v : Scalar) (ps : List Poly) (x : Scalar) :
    (weighted scale v ps).eval x = weighted (· * ·) v (ps.map (·.eval x)) :=
  map_weighted (f := (·.eval x)) (eval_zero x) (fun p q => eval_add p q x)
    (fun k p => eval_scale k p x) v ps

namespace Scheme

/-! ### The scheme of a secret -/

section

variable {G₁ G₂ : Type} [SMul Scalar G₁] [SMul Scalar G₂] [Generator G₁] [Generator G₂]

/-- A setup draws a secret and gives its scheme, if there can be a table of that size. -/
theorem setup_run (d : Nat) (g : Rng) : ((setup d : Draw (Except Fault (Scheme G₁ G₂))).run g).1 =
    if TableFits (d + 1) pointWidth then .ok (ofSecret d (Scalar.random.run g).1)
    else .error (.misuse .tableTooLarge) := by
  rw [setup, StateT.run_bind]
  simp only [requireTable]
  split <;> rfl

/-- A setup succeeds when its table fits, with the parameters of the drawn secret. -/
theorem setup_eq_ok_iff {d : Nat} {g : Rng} {scheme : Scheme G₁ G₂} :
    ((setup d).run g).1 = .ok scheme ↔
      TableFits (d + 1) pointWidth ∧ scheme = ofSecret d (Scalar.random.run g).1 := by
  rw [setup_run]
  split
  · rename_i hfits
    simp only [Except.ok.injEq, hfits, true_and, eq_comm]
  · rename_i hfits
    simp only [reduceCtorEq, hfits, false_and]

end

/-- A prefix of the table of powers is a shorter table of powers. -/
theorem powers_take {G : Type} [SMul Scalar G] (s : Scalar) (P : G) {k n : Nat} (h : k ≤ n) :
    (powers s P n).take k = powers s P k := by
  induction k generalizing P n with
  | zero => rfl
  | succ k ih =>
      obtain ⟨m, rfl⟩ : ∃ m, n = m + 1 := ⟨n - 1, by omega⟩
      rw [powers, List.take_succ_cons, ih _ (Nat.le_of_succ_le_succ h), powers]

section

variable {G : Type} [AddCommGroup G] [Module Scalar G]

/-- Combining the powers of a secret evaluates the polynomial at it, in the exponent. -/
theorem combination_powers (cs : List Scalar) (s : Scalar) (P : G) :
    combination cs (powers s P cs.length) = evalCoefs cs s • P := by
  induction cs generalizing P with
  | nil => exact (zero_smul Scalar P).symm
  | cons c cs ih =>
      have ih := ih (s • P)
      rw [combination] at ih ⊢
      rw [List.length_cons, powers, List.zipWith_cons_cons, List.sum_cons, ih, smul_smul,
        ← add_smul, evalCoefs_cons, add_comm]

/-- A weighted sum of multiples of a point is the multiple by the weighted sum. -/
theorem weighted_smul_map (v : Scalar) (as : List Scalar) (P : G) :
    weighted (· • ·) v (as.map (· • P)) = weighted (· * ·) v as • P :=
  (map_weighted (f := (· • P)) (zero_smul Scalar P) (fun a b => add_smul a b P)
    (fun k a => mul_smul k a P) v as).symm

end

section

variable {G₁ G₂ : Type} [AddCommGroup G₁] [Module Scalar G₁] [SMul Scalar G₂]
  [Generator G₁] [Generator G₂] {d : Nat} {s : Scalar}

/-- A commitment is the value at the secret, times the base point. -/
theorem commit_ofSecret_eq_ok_iff {p : Poly} {C : G₁} :
    (ofSecret d s : Scheme G₁ G₂).commit p = .ok C ↔
      p.coefs ≠ [] ∧ p.coefs.length ≤ d + 1 ∧ C = p.eval s • Generator.generator := by
  have hlen : (ofSecret d s : Scheme G₁ G₂).g1.length = d + 1 := powers_length ..
  rw [commit, hlen]
  by_cases hnil : p.coefs = []
  · simp [Poly.degree, hnil, multiExp, ofSecret, powers_take]
  have hpos : 0 < p.coefs.length := List.length_pos_iff.2 hnil
  have hdegree : p.degree + 1 = p.coefs.length := by
    rw [Poly.degree]
    omega
  rw [hdegree]
  by_cases hle : p.coefs.length ≤ d + 1
  · rw [if_neg (by omega), ofSecret, powers_take _ _ hle,
      multiExp_eq_ok (powers_length ..).symm, combination_powers]
    simp [hnil, hle, Poly.eval, eq_comm]
  · simp [Nat.not_le.1 hle, hle]

/-- A witness is a multiple of the base point that accounts for the values at the secret and at the
point. -/
theorem prove_ofSecret_eq_ok {p : Poly} {x : Scalar} {bound : Nat} {W : G₁}
    (h : (ofSecret d s : Scheme G₁ G₂).prove p x bound = .ok W) :
    ∃ k : Scalar, W = k • Generator.generator ∧ p.eval s - p.eval x = (s - x) * k := by
  simp only [prove, require_eq_ok_iff, bind_eq_ok_iff] at h
  obtain ⟨-, ⟨q, v⟩, hdiv, hcommit⟩ := h
  obtain ⟨-, -, rfl⟩ := commit_ofSecret_eq_ok_iff.1 hcommit
  exact ⟨q.eval s, rfl, eval_of_divByLinear hdiv s⟩

end

/-! ### The parts of an opening -/

section

variable {G₁ G₂ : Type} [SMul Scalar G₁] [Zero G₁] [Add G₁] {scheme : Scheme G₁ G₂}

/-- An opening is a witness, the point and the evaluation there. -/
theorem openAt_eq_ok_iff {x : Scalar} {p : Poly} {o : Opening G₁} :
    scheme.openAt x p = .ok o ↔
      scheme.prove p x scheme.maxDegree = .ok o.witness ∧ o.point = x ∧ o.value = p.eval x := by
  obtain ⟨point, value, witness⟩ := o
  simp only [openAt, bind_eq_ok_iff, pure_eq_ok_iff, Opening.mk.injEq]
  constructor
  · rintro ⟨W, hW, rfl, rfl, rfl⟩
    exact ⟨hW, rfl, rfl⟩
  · rintro ⟨hW, rfl, rfl⟩
    exact ⟨witness, hW, rfl, rfl, rfl⟩

/-- A batch opening is a witness of the weighted sum and all evaluations. -/
theorem batchOpenAt_eq_ok_iff {x v : Scalar} {ps : List Poly} {o : BatchOpening G₁} :
    scheme.batchOpenAt x v ps = .ok o ↔
      ps ≠ [] ∧ scheme.prove (weighted scale v ps) x scheme.maxDegree = .ok o.witness ∧
        o.point = x ∧ o.values = ps.map (·.eval x) := by
  obtain ⟨point, values, witness⟩ := o
  simp only [batchOpenAt, require_eq_ok_iff, bind_eq_ok_iff, pure_eq_ok_iff, BatchOpening.mk.injEq]
  constructor
  · rintro ⟨hne, W, hW, rfl, rfl, rfl⟩
    exact ⟨hne, hW, rfl, rfl⟩
  · rintro ⟨hne, hW, rfl, rfl⟩
    exact ⟨hne, witness, hW, rfl, rfl, rfl⟩

end

/-! ### What the verifier accepts -/

section

variable {G₁ G₂ Gₜ : Type} [AddCommGroup G₁] [Module Scalar G₁] [AddCommGroup G₂] [Module Scalar G₂]
  [AddCommGroup Gₜ] [Module Scalar Gₜ] [DecidableEq Gₜ] [Generator G₁] [Generator G₂]
  [Pairing G₁ G₂ Gₜ] [Pairing.Bilinear G₁ G₂ Gₜ] {d : Nat} {s : Scalar}

/-- The two pairings of the verifier are one, with the base point of the second group. -/
theorem verify_ofSecret_eq (C W : G₁) (x y : Scalar) :
    (ofSecret d s : Scheme G₁ G₂).verify C x y W =
      if (Pairing.pair (C - y • (Generator.generator : G₁) - (s - x) • W)
          (Generator.generator : G₂) : Gₜ) = 0 then .ok ()
      else .error .commitment := by
  have hpairs : (pairingSum [C - y • (Generator.generator : G₁) + x • W, -W]
      [Generator.generator, s • (Generator.generator : G₂)] : Gₜ) =
        Pairing.pair (C - y • (Generator.generator : G₁) - (s - x) • W)
          (Generator.generator : G₂) := by
    rw [pairingSum, List.zipWith_cons_cons, List.zipWith_cons_cons, List.zipWith_nil_left,
      List.sum_cons, List.sum_cons, List.sum_nil, add_zero, Pairing.pair_add_pair_neg_smul,
      sub_smul]
    congr 1
    abel
  rw [← hpairs]
  rfl

/-- The group equation is enough for acceptance: this direction needs bilinearity only. -/
theorem verify_ofSecret_of_eq {C W : G₁} {x y : Scalar}
    (h : C - y • Generator.generator = (s - x) • W) :
    (ofSecret d s : Scheme G₁ G₂).verify C x y W = .ok () := by
  rw [verify_ofSecret_eq, h, sub_self, if_pos]
  rw [← zero_smul Scalar (0 : G₁), Pairing.Bilinear.pair_smul_left, zero_smul]

variable [PrimeOrder G₂] [Pairing.Nondegenerate G₁ G₂ Gₜ] {C W : G₁} {x y : Scalar}

/-- Where the group equation fails, nondegeneracy makes the pairings differ. -/
theorem verify_ofSecret_of_ne (h : C - y • Generator.generator ≠ (s - x) • W) :
    (ofSecret d s : Scheme G₁ G₂).verify C x y W = .error .commitment := by
  rw [verify_ofSecret_eq, if_neg (mt Pairing.pair_generator_eq_zero_iff.1 (sub_ne_zero.2 h))]

/-- Acceptance is the group equation in `G₁`. -/
theorem verify_ofSecret_eq_ok_iff : (ofSecret d s : Scheme G₁ G₂).verify C x y W = .ok () ↔
    C - y • Generator.generator = (s - x) • W := by
  by_cases h : C - y • Generator.generator = (s - x) • W
  · simp [verify_ofSecret_of_eq h, h]
  · simp [verify_ofSecret_of_ne h, h]

end

end Scheme

end PlonkKzg
