import PlonkKzg.Commitment.Opening
import PlonkKzg.Proofs.Outcome
import PlonkKzg.Proofs.Poly.Polynomial

/-!
# When commitments and openings can be made

A scheme with enough parameters commits to every polynomial with stored coefficients, and opens it
at every point.

* `Scheme.commit_isOk`, `Scheme.prove_isOk`, `Scheme.openAt_isOk` — for one polynomial;
* `Poly.sum_length_le`, `Poly.sum_coefs_ne_nil` — the size of a sum;
* `Scheme.batchOpenAt_isOk` — for several polynomials;
* `Scheme.verifyOpening_shrink`, `Scheme.verifyBatch_shrink` — checking needs few parameters.
-/

namespace PlonkKzg

/-! ### Sizes of sums -/

namespace Poly

theorem scale_length_le (k : Scalar) {p : Poly} {n : Nat} (h : p.coefs.length ≤ n) (hn : 0 < n) :
    (scale k p).coefs.length ≤ n :=
  ofCoefs_length_le (by rwa [List.length_map]) hn

theorem add_length_le {p q : Poly} {n : Nat} (hp : p.coefs.length ≤ n) (hq : q.coefs.length ≤ n)
    (hn : 0 < n) : (p + q).coefs.length ≤ n :=
  ofCoefs_length_le (by rw [combine_length]; omega) hn

theorem sub_length_le {p q : Poly} {n : Nat} (hp : p.coefs.length ≤ n) (hq : q.coefs.length ≤ n)
    (hn : 0 < n) : (p - q).coefs.length ≤ n :=
  ofCoefs_length_le (by rw [combine_length]; omega) hn

theorem sum_length_le {ps : List Poly} {n : Nat} (hn : 0 < n)
    (h : ∀ p ∈ ps, p.coefs.length ≤ n) : ps.sum.coefs.length ≤ n := by
  induction ps with
  | nil =>
      rw [List.sum_nil]
      exact (ofCoefs_length_le hn hn : (ofCoefs [0]).coefs.length ≤ n)
  | cons p ps ih =>
      rw [List.sum_cons]
      exact add_length_le (h p List.mem_cons_self)
        (ih fun q hq => h q (List.mem_cons_of_mem p hq)) hn

/-- A sum always stores a coefficient, also the empty one. -/
theorem sum_coefs_ne_nil (ps : List Poly) : ps.sum.coefs ≠ [] := by
  cases ps with
  | nil => exact ofCoefs_coefs_ne_nil [0]
  | cons p ps =>
      rw [List.sum_cons]
      exact ofCoefs_coefs_ne_nil _

/-- A weighted sum of polynomials within a bound is within it. -/
theorem weighted_length_le {ps : List Poly} {n : Nat} (hn : 0 < n) (v : Scalar)
    (h : ∀ p ∈ ps, p.coefs.length ≤ n) : (weighted scale v ps).coefs.length ≤ n := by
  apply sum_length_le hn
  intro q hq
  obtain ⟨i, hi, rfl⟩ := List.mem_iff_getElem.1 hq
  rw [List.getElem_zipWith]
  exact scale_length_le _ (h _ (List.getElem_mem _)) hn

end Poly

/-! ### Schemes with enough parameters -/

namespace Scheme

section

variable {G₁ G₂ : Type} [SMul Scalar G₁] [Zero G₁] [Add G₁] {s : Scheme G₁ G₂}

/-- Every nonempty polynomial within the parameters has a commitment. -/
theorem commit_isOk {p : Poly} (hne : p.coefs ≠ []) (hle : p.coefs.length ≤ s.g1.length) :
    ∃ C, s.commit p = .ok C := by
  have hpos : 0 < p.coefs.length := List.length_pos_iff.2 hne
  have hdegree : p.degree + 1 = p.coefs.length := by
    rw [Poly.degree]
    omega
  rw [commit, hdegree, if_neg (by omega), multiExp_eq_ok]
  · exact ⟨_, rfl⟩
  · rw [List.length_take]
    omega

theorem prove_isOk {p : Poly} (hne : p.coefs ≠ []) (hle : p.coefs.length ≤ s.g1.length)
    (x : Scalar) : ∃ W, s.prove p x s.maxDegree = .ok W := by
  have hpos : 0 < p.coefs.length := List.length_pos_iff.2 hne
  have hlen := Poly.endValues_length x p.coefs
  have hquotient : ∃ vs v, p.divByLinear x = .ok (.ofCoefs vs, v) ∧ vs.length ≤ s.g1.length := by
    unfold Poly.divByLinear
    split
    · rename_i hnil
      rw [hnil] at hlen
      exact absurd hlen.symm hpos.ne'
    · rename_i v vs hcons
      rw [hcons, List.length_cons] at hlen
      exact ⟨vs, v, rfl, by omega⟩
  obtain ⟨vs, v, hdiv, hvs⟩ := hquotient
  obtain ⟨W, hW⟩ := commit_isOk (s := s) (Poly.ofCoefs_coefs_ne_nil vs)
    (Poly.ofCoefs_length_le hvs (by omega))
  refine ⟨W, ?_⟩
  simp only [prove, require_eq_ok_iff, bind_eq_ok_iff]
  refine ⟨?_, _, hdiv, hW⟩
  rw [Poly.degree, maxDegree]
  omega

theorem openAt_isOk {p : Poly} (hne : p.coefs ≠ []) (hle : p.coefs.length ≤ s.g1.length)
    (x : Scalar) : ∃ o, s.openAt x p = .ok o := by
  obtain ⟨W, hW⟩ := prove_isOk (s := s) hne hle x
  refine ⟨⟨x, p.eval x, W⟩, ?_⟩
  simp only [openAt, bind_eq_ok_iff, pure_eq_ok_iff]
  exact ⟨W, hW, rfl⟩

/-- A nonempty batch within the parameters opens at every point. -/
theorem batchOpenAt_isOk {ps : List Poly} (hne : ps ≠ []) (hpos : 0 < s.g1.length)
    (hle : ∀ p ∈ ps, p.coefs.length ≤ s.g1.length) (x v : Scalar) :
    ∃ o, s.batchOpenAt x v ps = .ok o := by
  obtain ⟨W, hW⟩ := prove_isOk (s := s) (Poly.sum_coefs_ne_nil _)
    (Poly.weighted_length_le hpos v hle) x
  refine ⟨⟨x, ps.map (·.eval x), W⟩, ?_⟩
  simp only [batchOpenAt, require_eq_ok_iff, bind_eq_ok_iff, pure_eq_ok_iff]
  exact ⟨hne, W, hW, rfl⟩

end

/-! ### The part of a scheme that a verifier keeps -/

section

variable {G₁ G₂ Gₜ : Type} [SMul Scalar G₁] [Add G₁] [Sub G₁] [Neg G₁] [Pairing G₁ G₂ Gₜ] [Zero Gₜ]
  [Add Gₜ] [DecidableEq Gₜ]

/-- Verification reads only what the shrunk parameters keep. -/
theorem verifyOpening_shrink (s : Scheme G₁ G₂) (C : G₁) (o : Opening G₁) :
    s.shrink.verifyOpening C o = s.verifyOpening C o :=
  verify_shrink ..

theorem verifyBatch_shrink [Zero G₁] (s : Scheme G₁ G₂) (Cs : List G₁) (v : Scalar)
    (o : BatchOpening G₁) : s.shrink.verifyBatch Cs v o = s.verifyBatch Cs v o := by
  rw [verifyBatch, verifyBatch, verify_shrink]

end

end Scheme

end PlonkKzg
