import PlonkKzg.Proofs.Commitment.Opening
import PlonkKzg.Proofs.Curve.Order
import PlonkKzg.Proofs.Poly.HighZeros

/-!
# Commitments to polynomials with zeros at the high end

A scheme decides by the number of stored coefficients whether a polynomial is too long for it. Zeros
at the high end can make a polynomial too long. If they do not, then its commitment and its openings
are those of the trimmed polynomial. A polynomial without a stored coefficient has no opening, and
where lengths are asserted no commitment either unless the scheme is empty, which refuses all
polynomials.

* `Bounded`, `Bounded.eq_ofCoefs_iff` — operations that refuse what is too long;
* `combination_ofCoefs` — zeros do not change sums of multiples;
* `Scheme.commit_bounded`, `Scheme.commit_eq_commit_ofCoefs_iff`, `Scheme.misused_commit_iff` —
  commitments;
* `Scheme.openAt_bounded`, `Scheme.openAt_eq_openAt_ofCoefs_iff`, `Scheme.misused_openAt_iff` —
  openings;
* `Scheme.highZeros_visible` — which operations show how a polynomial is stored.
-/

namespace PlonkKzg

open PlonkKzg.Poly

/-! ### Operations with a bound on the length -/

/-- Polynomials with more than `n` stored coefficients are refused, and all others with any are
not. -/
structure Bounded {α : Type} (n : Nat) (f : Poly → Except Fault α) : Prop where
  refuses : ∀ {p : Poly}, n < p.coefs.length → f p = .error (.error .degreeTooHigh)
  grants : ∀ {p : Poly}, p.coefs ≠ [] → p.coefs.length ≤ n → ∃ a, f p = .ok a

section

variable {α : Type} {n : Nat} {f : Poly → Except Fault α} {cs : List Scalar}

/-- Where an operation that does not show zeros has a bound, it shows them only if they decide on
whether the bound is kept. -/
theorem Bounded.eq_ofCoefs_iff (h : Bounded n f) (hne : cs ≠ [])
    (hsame : cs.length ≤ n → f ⟨cs⟩ = f (ofCoefs cs)) :
    f ⟨cs⟩ = f (ofCoefs cs) ↔ cs.length ≤ n ∨ n < (ofCoefs cs).coefs.length := by
  constructor
  · intro heq
    by_contra hbound
    obtain ⟨hlong, hfits⟩ := not_or.1 hbound
    obtain ⟨a, ha⟩ := h.grants (ofCoefs_coefs_ne_nil cs) (Nat.not_lt.1 hfits)
    rw [h.refuses (Nat.not_le.1 hlong), ha] at heq
    cases heq
  · rintro (hfits | hlong)
    · exact hsame hfits
    · rw [h.refuses hlong, h.refuses (hlong.trans_le (length_ofCoefs_le hne))]

theorem Bounded.misused (h : Bounded n f) {p : Poly} (hp : Misused (f p)) : p.coefs = [] := by
  obtain ⟨broken, hbroken⟩ := hp
  by_contra hne
  rcases Nat.lt_or_ge n p.coefs.length with hlong | hfits
  · rw [h.refuses hlong] at hbroken
    cases hbroken
  · obtain ⟨a, ha⟩ := h.grants hne hfits
    rw [ha] at hbroken
    cases hbroken

end

/-! ### Sums of multiples -/

section

variable {G : Type} [AddCommGroup G] [Module Scalar G]

theorem combination_cons (k : Scalar) (ks : List Scalar) (P : G) (ps : List G) :
    combination (k :: ks) (P :: ps) = k • P + combination ks ps := by
  rw [combination, List.zipWith_cons_cons, List.sum_cons, combination]

/-- Zeros at the end contribute nothing to a combination. -/
theorem combination_dropZeros (cs : List Scalar) (ps : List G) :
    combination (dropZeros cs) ps = combination cs ps := by
  induction cs generalizing ps with
  | nil => rfl
  | cons c cs ih =>
      cases ps with
      | nil => simp [combination]
      | cons P ps =>
          rw [combination_cons, ← ih ps, dropZeros]
          split
          · rename_i hnil
            by_cases hc : c = 0
            · rw [if_pos hc, hnil, hc, zero_smul, zero_add]
              rfl
            · rw [if_neg hc, combination_cons, hnil]
          · rename_i hcons
            rw [combination_cons, hcons]

/-- The trimmed list has the same sum, even where it is the single zero. -/
theorem combination_ofCoefs (cs : List Scalar) (ps : List G) :
    combination (ofCoefs cs).coefs ps = combination cs ps := by
  rw [← combination_dropZeros cs, ofCoefs]
  split
  · rename_i hnil
    rw [hnil]
    cases ps with
    | nil => rfl
    | cons P ps =>
        rw [combination_cons, zero_smul, zero_add]
        rfl
  · rename_i hcons
    rw [hcons]

/-- A combination reads no more bases than it has coefficients. -/
theorem combination_take {ks : List Scalar} {n : Nat} (h : ks.length ≤ n) (ps : List G) :
    combination ks (ps.take n) = combination ks ps := by
  induction ks generalizing n ps with
  | nil => rfl
  | cons k ks ih =>
      cases ps with
      | nil => rw [List.take_nil]
      | cons P ps =>
          cases n with
          | zero => cases h
          | succ n =>
              rw [List.take_succ_cons, combination_cons, combination_cons,
                ih (Nat.le_of_succ_le_succ h)]

end

namespace Scheme

/-! ### Commitments -/

section

variable {G₁ G₂ : Type} [SMul Scalar G₁] [Zero G₁] [Add G₁] (s : Scheme G₁ G₂)

theorem commit_bounded : Bounded s.g1.length s.commit where
  refuses h := if_pos (by rw [degree]; omega)
  grants hne hle := commit_isOk hne hle

theorem commit_empty : s.commit ⟨[]⟩ =
    if s.g1 = [] then .error (.error .degreeTooHigh) else .error (.misuse .lengthMismatch) := by
  obtain ⟨_ | ⟨g, gs⟩, g2⟩ := s
  · rfl
  · rfl

/-- Only the empty list is a misuse, and only against parameters that hold a base. -/
theorem misused_commit_iff {p : Poly} : Misused (s.commit p) ↔ p.coefs = [] ∧ s.g1 ≠ [] := by
  constructor
  · intro h
    have hnil := s.commit_bounded.misused h
    refine ⟨hnil, fun hg => ?_⟩
    obtain ⟨broken, hbroken⟩ := h
    rw [show p = ⟨[]⟩ from Poly.ext hnil, commit_empty, if_pos hg] at hbroken
    cases hbroken
  · rintro ⟨hnil, hg⟩
    rw [show p = ⟨[]⟩ from Poly.ext hnil, commit_empty, if_neg hg]
    exact ⟨_, rfl⟩

/-! ### Openings -/

/-- Within the bound a proof is the commitment of the quotient. -/
theorem prove_eq_of_degree_le {p : Poly} {bound : Nat} (h : p.degree ≤ bound) (x : Scalar) :
    s.prove p x bound = p.divByLinear x >>= fun r => s.commit r.1 := by
  rw [prove, if_neg (Nat.not_lt.2 h)]

/-- Only the empty scheme gets as far as the quotient, and refuses it. -/
theorem prove_eq_error {p : Poly} (h : s.g1.length < p.coefs.length) (x : Scalar) :
    s.prove p x s.maxDegree = .error (.error .degreeTooHigh) := by
  rcases Nat.lt_or_ge s.maxDegree p.degree with hlong | hfits
  · rw [prove, if_pos hlong]
    rfl
  · have hne : p.coefs ≠ [] := List.ne_nil_of_length_pos (Nat.zero_lt_of_lt h)
    obtain ⟨q, v, hdiv⟩ := divByLinear_isOk hne x
    have hq : 0 < q.coefs.length := List.length_pos_iff.2 ((divByLinear_eq_ok_iff hne).1 hdiv).1.1
    have hempty : s.g1.length = 0 := by
      rw [maxDegree, degree] at hfits
      omega
    rw [s.prove_eq_of_degree_le hfits, hdiv]
    exact s.commit_bounded.refuses (hempty ▸ hq)

theorem openAt_bounded (x : Scalar) : Bounded s.g1.length (s.openAt x) where
  refuses h := by
    rw [openAt, bind_eq_error_iff]
    exact .inl (s.prove_eq_error h x)
  grants hne hle := openAt_isOk hne hle x

theorem openAt_empty (x : Scalar) : s.openAt x ⟨[]⟩ = .error (.misuse .noCoefficients) := rfl

theorem misused_openAt_iff {p : Poly} (x : Scalar) : Misused (s.openAt x p) ↔ p.coefs = [] := by
  refine ⟨(s.openAt_bounded x).misused, fun hnil => ?_⟩
  rw [show p = ⟨[]⟩ from Poly.ext hnil, openAt_empty]
  exact ⟨_, rfl⟩

/-- A polynomial that is short enough has the opening of the trimmed one. -/
theorem openAt_ofCoefs {cs : List Scalar} (hne : cs ≠ []) (hle : cs.length ≤ s.g1.length)
    (x : Scalar) : s.openAt x ⟨cs⟩ = s.openAt x (ofCoefs cs) := by
  have hdegree : (Poly.mk cs).degree ≤ s.maxDegree := Nat.sub_le_sub_right hle 1
  rw [openAt, openAt, s.prove_eq_of_degree_le hdegree,
    s.prove_eq_of_degree_le ((degree_ofCoefs_le cs).trans hdegree), divByLinear_ofCoefs hne,
    eval_ofCoefs]
  rfl

theorem openAt_eq_openAt_ofCoefs_iff {cs : List Scalar} (x : Scalar) :
    s.openAt x ⟨cs⟩ = s.openAt x (ofCoefs cs) ↔
      cs ≠ [] ∧ (cs.length ≤ s.g1.length ∨ s.g1.length < (ofCoefs cs).coefs.length) := by
  by_cases hne : cs = []
  · refine iff_of_false (fun heq => ?_) fun h => h.1 hne
    have hmisused := (s.misused_openAt_iff (p := ⟨cs⟩) x).2 hne
    rw [heq, s.misused_openAt_iff x] at hmisused
    exact ofCoefs_coefs_ne_nil cs hmisused
  · rw [and_iff_right hne]
    exact (s.openAt_bounded x).eq_ofCoefs_iff hne fun hle => s.openAt_ofCoefs hne hle x

end

section

variable {G₁ G₂ : Type} [AddCommGroup G₁] [Module Scalar G₁] (s : Scheme G₁ G₂)

/-- A commitment within the bound is the combination of its coefficients. -/
theorem commit_eq_combination {p : Poly} (hne : p.coefs ≠ []) (hle : p.coefs.length ≤ s.g1.length) :
    s.commit p = .ok (combination p.coefs s.g1) := by
  have hdegree : p.degree + 1 = p.coefs.length := Nat.sub_add_cancel (List.length_pos_iff.2 hne)
  rw [commit, hdegree, if_neg (Nat.not_lt.2 hle), multiExp_eq_ok (List.length_take_of_le hle).symm,
    combination_take (Nat.le_refl _)]

/-- A polynomial that is short enough has the commitment of the trimmed one. -/
theorem commit_ofCoefs {cs : List Scalar} (hne : cs ≠ []) (hle : cs.length ≤ s.g1.length) :
    s.commit ⟨cs⟩ = s.commit (ofCoefs cs) := by
  have hne' : (Poly.mk cs).coefs ≠ [] := hne
  rw [s.commit_eq_combination hne' hle, s.commit_eq_combination (ofCoefs_coefs_ne_nil cs)
    ((length_ofCoefs_le hne).trans hle), combination_ofCoefs]

theorem commit_eq_commit_ofCoefs_iff {cs : List Scalar} :
    s.commit ⟨cs⟩ = s.commit (ofCoefs cs) ↔ (cs ≠ [] ∨ s.g1 = []) ∧
      (cs.length ≤ s.g1.length ∨ s.g1.length < (ofCoefs cs).coefs.length) := by
  by_cases hne : cs = []
  · by_cases hg : s.g1 = []
    · have hlong : s.g1.length < (ofCoefs cs).coefs.length := by
        rw [hg]
        exact List.length_pos_iff.2 (ofCoefs_coefs_ne_nil cs)
      refine iff_of_true ?_ ⟨.inr hg, .inr hlong⟩
      rw [s.commit_bounded.refuses hlong, hne, s.commit_empty, if_pos hg]
    · refine iff_of_false (fun heq => ?_) fun h => h.1.elim (· hne) hg
      have hmisused := (s.misused_commit_iff (p := ⟨cs⟩)).2 ⟨hne, hg⟩
      rw [heq, s.misused_commit_iff] at hmisused
      exact ofCoefs_coefs_ne_nil cs hmisused.1
  · rw [and_iff_right (.inl hne)]
    exact s.commit_bounded.eq_ofCoefs_iff hne fun hle => s.commit_ofCoefs hne hle

end

/-- What shows how a polynomial is stored, against its trimmed form. The values never do. The degree
does if trimming makes the list shorter, the test for zero if there are two zeros or more and nothing
else. Division shows nothing but the empty list, with which it is misused. A commitment and an
opening show zeros that alone make the polynomial too long for the scheme, and are misused with the
empty list, the commitment only if the scheme has a parameter. That one is a debug assertion; the
misuse of division and of openings is one in every build. -/
theorem highZeros_visible (scheme : Scheme G1 G2) (cs : List Scalar) (a : Scalar) :
    let p : Poly := ⟨cs⟩
    let t : Poly := ofCoefs cs
    p.eval a = t.eval a ∧
    (p.degree = t.degree ↔ cs = [] ∨ p.Trimmed) ∧
    (p.isZero = t.isZero ↔ cs.length ≤ 1 ∨ ∃ c ∈ cs, c ≠ 0) ∧
    (p.divByLinear a = t.divByLinear a ↔ cs ≠ []) ∧
    (scheme.commit p = scheme.commit t ↔ (cs ≠ [] ∨ scheme.g1 = []) ∧
      (cs.length ≤ scheme.g1.length ∨ scheme.g1.length < t.coefs.length)) ∧
    (scheme.openAt a p = scheme.openAt a t ↔ cs ≠ [] ∧
      (cs.length ≤ scheme.g1.length ∨ scheme.g1.length < t.coefs.length)) ∧
    (Misused (p.divByLinear a) ↔ cs = []) ∧ ¬Misused (t.divByLinear a) ∧
    (Misused (scheme.commit p) ↔ cs = [] ∧ scheme.g1 ≠ []) ∧ ¬Misused (scheme.commit t) ∧
    (Misused (scheme.openAt a p) ↔ cs = []) ∧ ¬Misused (scheme.openAt a t) := by
  intro p t
  have ht : t.coefs ≠ [] := ofCoefs_coefs_ne_nil cs
  exact ⟨(eval_ofCoefs cs a).symm, degree_eq_degree_ofCoefs_iff, isZero_eq_isZero_ofCoefs_iff,
    divByLinear_eq_divByLinear_ofCoefs_iff, scheme.commit_eq_commit_ofCoefs_iff,
    scheme.openAt_eq_openAt_ofCoefs_iff a, misused_divByLinear_iff,
    fun h => ht (misused_divByLinear_iff.1 h), scheme.misused_commit_iff,
    fun h => ht (scheme.misused_commit_iff.1 h).1, scheme.misused_openAt_iff a,
    fun h => ht ((scheme.misused_openAt_iff a).1 h)⟩

/-- Division, commitment and opening are misused with a polynomial that stores nothing, and with the
zero polynomial they are not. Two zeros have the degree one and are not taken for zero, and do not
fit a scheme with one parameter. -/
theorem stored_zeros_visible :
    (⟨[]⟩ : Poly).divByLinear 1 = .error (.misuse .noCoefficients) ∧
    (ofCoefs []).divByLinear 1 = .ok (0, 0) ∧
    (⟨[0, 0]⟩ : Poly).degree = 1 ∧ (ofCoefs [0, 0]).degree = 0 ∧
    (⟨[0, 0]⟩ : Poly).isZero = false ∧ (ofCoefs [0, 0]).isZero = true ∧
    ∃ scheme : Scheme G1 G2, scheme = ofSecret 0 1 ∧
      scheme.commit ⟨[]⟩ = .error (.misuse .lengthMismatch) ∧ scheme.commit (ofCoefs []) = .ok 0 ∧
      scheme.openAt 1 ⟨[]⟩ = .error (.misuse .noCoefficients) ∧
      scheme.openAt 1 (ofCoefs []) = .ok ⟨1, 0, 0⟩ ∧
      scheme.commit ⟨[0, 0]⟩ = .error (.error .degreeTooHigh) ∧
      scheme.commit (ofCoefs [0, 0]) = .ok 0 := by
  refine ⟨rfl, by decide, rfl, by decide, rfl, by decide, ofSecret 0 1, rfl, rfl, by decide, rfl,
    by decide, rfl, by decide⟩

end Scheme

end PlonkKzg
