import PlonkKzg.Proofs.Commitment.Opening
import PlonkKzg.Proofs.Curve.Order

/-!
# What the verifier answers

The verifier reads untrusted parameters, commitments and openings. It accepts or gives one of two
causes, whatever it is given: the pairings that it sums up come from two lists of one length, and it
looks at the first parameter of the first group and at the first two of the second before it uses
them. Other parameters it does not read.

* `Scheme.HasVerifierKey` — the parameters that the verifier reads are there;
* `Scheme.eq_shrink_iff` — which parameters a verifier keeps;
* `Scheme.verify_cases`, `Scheme.verify_eq_of_key` — the answer on one claim;
* `Scheme.verifyBatch_cases`, `Scheme.verifyBatch_eq_badArguments_iff` — and on several;
* `Scheme.verifyBatch_singleton` — several claims that are one;
* `Scheme.verification_total` — all answers, of a scheme and of the part that a verifier keeps.
-/

namespace PlonkKzg

/-- A weighted sum of one item is the item. -/
theorem weighted_singleton {G : Type} [AddCommGroup G] [Module Scalar G] (v : Scalar) (P : G) :
    weighted (· • ·) v [P] = P := by
  show (1 : Scalar) • P + 0 = P
  rw [one_smul, add_zero]

namespace Scheme

/-- The parameters that the verifier reads are there. -/
def HasVerifierKey {G₁ G₂ : Type} (scheme : Scheme G₁ G₂) : Prop :=
  scheme.g1 ≠ [] ∧ 2 ≤ scheme.g2.length

/-- The verifier's key is one base of the first list and two of the second. -/
theorem hasVerifierKey_iff {G₁ G₂ : Type} {scheme : Scheme G₁ G₂} : scheme.HasVerifierKey ↔
    ∃ g gs h sh hs, scheme = ⟨g :: gs, h :: sh :: hs⟩ := by
  constructor
  · obtain ⟨_ | ⟨g, gs⟩, _ | ⟨h, _ | ⟨sh, hs⟩⟩⟩ := scheme
    all_goals simp [HasVerifierKey]
  · rintro ⟨g, gs, h, sh, hs, rfl⟩
    simp [HasVerifierKey]

/-- A verifier keeps the beginnings of both lists: one parameter of the first and two of the second,
or all where there are fewer. -/
theorem eq_shrink_iff {G₁ G₂ : Type} {scheme kept : Scheme G₁ G₂} : kept = scheme.shrink ↔
    (kept.g1 <+: scheme.g1 ∧ kept.g1.length = min 1 scheme.g1.length) ∧
      kept.g2 <+: scheme.g2 ∧ kept.g2.length = min 2 scheme.g2.length := by
  have htake {G : Type} (n : Nat) (l k : List G) :
      k = l.take n ↔ k <+: l ∧ k.length = min n l.length := by
    rw [List.prefix_iff_eq_take]
    refine ⟨?_, fun ⟨hinit, hlen⟩ => ?_⟩
    · rintro rfl
      exact ⟨by rw [List.length_take, ← List.take_eq_take_min], List.length_take⟩
    · rw [hinit, hlen, ← List.take_eq_take_min]
  rw [Scheme.ext_iff]
  exact and_congr (htake 1 scheme.g1 kept.g1) (htake 2 scheme.g2 kept.g2)

section

variable {G₁ G₂ Gₜ : Type} [SMul Scalar G₁] [Add G₁] [Sub G₁] [Neg G₁] [Pairing G₁ G₂ Gₜ]
  [Zero Gₜ] [Add Gₜ] [DecidableEq Gₜ] {scheme : Scheme G₁ G₂}

/-- Without the key every opening is refused with the commitment error. -/
theorem verify_of_no_key (hkey : ¬scheme.HasVerifierKey) (C : G₁) (x y : Scalar) (W : G₁) :
    scheme.verify C x y W = .error .commitment := by
  obtain ⟨_ | ⟨g, gs⟩, _ | ⟨h, _ | ⟨sh, hs⟩⟩⟩ := scheme
  case cons.cons.cons => exact absurd (hasVerifierKey_iff.2 ⟨g, gs, h, sh, hs, rfl⟩) hkey
  all_goals rfl

/-- With the parameters that it reads, the verifier forms one sum of pairings, which there always
is, and accepts if it is zero. -/
theorem verify_eq_of_key (g : G₁) (gs : List G₁) (h sh : G₂) (hs : List G₂) (C : G₁) (x y : Scalar)
    (W : G₁) : ∃ t : Gₜ, pairingProduct [C - y • g + x • W, -W] [h, sh] = .ok t ∧
      (Scheme.mk (g :: gs) (h :: sh :: hs)).verify C x y W =
        if t = 0 then .ok () else .error .commitment :=
  ⟨_, rfl, rfl⟩

/-- A single verification has two outcomes. -/
theorem verify_cases (scheme : Scheme G₁ G₂) (C : G₁) (x y : Scalar) (W : G₁) :
    scheme.verify C x y W = .ok () ∨ scheme.verify C x y W = .error .commitment := by
  by_cases hkey : scheme.HasVerifierKey
  · obtain ⟨g, gs, h, sh, hs, rfl⟩ := hasVerifierKey_iff.1 hkey
    obtain ⟨t, -, ht⟩ : ∃ t : Gₜ, _ ∧ _ := verify_eq_of_key g gs h sh hs C x y W
    rw [ht]
    split
    · exact .inl rfl
    · exact .inr rfl
  · exact .inr (verify_of_no_key hkey C x y W)

theorem verify_ne_badArguments (scheme : Scheme G₁ G₂) (C : G₁) (x y : Scalar) (W : G₁) :
    scheme.verify C x y W ≠ .error .badArguments := by
  rcases scheme.verify_cases C x y W with h | h <;> simp [h]

variable [Zero G₁] {Cs : List G₁} {v : Scalar} {o : BatchOpening G₁}

/-- Lists that fit are folded, and the sums are checked like one claim. -/
theorem verifyBatch_of_fits (hne : Cs ≠ []) (hlen : Cs.length = o.values.length) :
    scheme.verifyBatch Cs v o =
      scheme.verify (weighted (· • ·) v Cs) o.point (weighted (· * ·) v o.values) o.witness :=
  if_neg (by simp [hne, hlen])

/-- A batch is badly formed when it is empty or its lengths differ. -/
theorem verifyBatch_eq_badArguments_iff : scheme.verifyBatch Cs v o = .error .badArguments ↔
    Cs = [] ∨ Cs.length ≠ o.values.length := by
  by_cases hfits : Cs = [] ∨ Cs.length ≠ o.values.length
  · exact iff_of_true (if_pos hfits) hfits
  · obtain ⟨hne, hlen⟩ := not_or.1 hfits
    rw [verifyBatch_of_fits hne (not_not.1 hlen)]
    exact iff_of_false (scheme.verify_ne_badArguments _ _ _ _) hfits

/-- A batch verification has three outcomes. -/
theorem verifyBatch_cases (scheme : Scheme G₁ G₂) (Cs : List G₁) (v : Scalar)
    (o : BatchOpening G₁) : scheme.verifyBatch Cs v o = .ok () ∨
      scheme.verifyBatch Cs v o = .error .badArguments ∨
        scheme.verifyBatch Cs v o = .error .commitment := by
  by_cases hfits : Cs = [] ∨ Cs.length ≠ o.values.length
  · exact .inr (.inl (verifyBatch_eq_badArguments_iff.2 hfits))
  · obtain ⟨hne, hlen⟩ := not_or.1 hfits
    rw [verifyBatch_of_fits hne (not_not.1 hlen)]
    exact (scheme.verify_cases ..).imp_right .inr

end

section

variable {G₁ G₂ Gₜ : Type} [AddCommGroup G₁] [Module Scalar G₁] [Pairing G₁ G₂ Gₜ] [Zero Gₜ]
  [Add Gₜ] [DecidableEq Gₜ]

/-- One claim among several is checked like that claim by itself, whatever the weights. -/
theorem verifyBatch_singleton (scheme : Scheme G₁ G₂) (C : G₁) (v : Scalar) (o : Opening G₁) :
    scheme.verifyBatch [C] v ⟨o.point, [o.value], o.witness⟩ = scheme.verifyOpening C o := by
  have hvalue : weighted (· * ·) v [o.value] = o.value := weighted_singleton v o.value
  rw [verifyBatch_of_fits (List.cons_ne_nil C []) rfl, weighted_singleton, hvalue, verifyOpening]

end

/-- Whatever the parameters are: the verifier accepts or refuses a claim, by the pairings that it
forms from the parameters that it reads, which always have a sum; without those parameters it
refuses every claim. Several claims are refused as arguments if and only if there is none, or
another number of values than of commitments, and otherwise like one claim. The part of the scheme
that a verifier keeps, the first parameter of the first group and the first two of the second, gives
the same answers and is all that is kept of itself. One claim among several is answered like that
claim by itself. -/
theorem verification_total (scheme : Scheme G1 G2) :
    (∀ (C W : G1) (x y : Scalar),
      scheme.verify C x y W = .ok () ∨ scheme.verify C x y W = .error .commitment) ∧
    (∀ (C : G1) (o : Opening G1),
      scheme.verifyOpening C o = .ok () ∨ scheme.verifyOpening C o = .error .commitment) ∧
    (∀ (Cs : List G1) (v : Scalar) (o : BatchOpening G1),
      (scheme.verifyBatch Cs v o = .error .badArguments ↔
        Cs = [] ∨ Cs.length ≠ o.values.length) ∧
      (scheme.verifyBatch Cs v o = .ok () ∨ scheme.verifyBatch Cs v o = .error .badArguments ∨
        scheme.verifyBatch Cs v o = .error .commitment)) ∧
    (∀ g gs h sh hs, scheme = ⟨g :: gs, h :: sh :: hs⟩ → ∀ (C W : G1) (x y : Scalar),
      ∃ t : Gt, pairingProduct [C - y • g + x • W, -W] [h, sh] = .ok t ∧
        scheme.verify C x y W = if t = 0 then .ok () else .error .commitment) ∧
    (scheme.g1 = [] ∨ scheme.g2.length < 2 →
      (∀ (C W : G1) (x y : Scalar), scheme.verify C x y W = .error .commitment) ∧
      (∀ (C : G1) (o : Opening G1), scheme.verifyOpening C o = .error .commitment) ∧
      ∀ (Cs : List G1) (v : Scalar) (o : BatchOpening G1), Cs ≠ [] →
        Cs.length = o.values.length → scheme.verifyBatch Cs v o = .error .commitment) ∧
    ((∀ (C W : G1) (x y : Scalar), scheme.shrink.verify C x y W = scheme.verify C x y W) ∧
      (∀ (C : G1) (o : Opening G1), scheme.shrink.verifyOpening C o = scheme.verifyOpening C o) ∧
      (∀ (Cs : List G1) (v : Scalar) (o : BatchOpening G1),
        scheme.shrink.verifyBatch Cs v o = scheme.verifyBatch Cs v o) ∧
      scheme.shrink.shrink = scheme.shrink ∧
      ∀ kept : Scheme G1 G2, kept = scheme.shrink ↔
        (kept.g1 <+: scheme.g1 ∧ kept.g1.length = min 1 scheme.g1.length) ∧
          kept.g2 <+: scheme.g2 ∧ kept.g2.length = min 2 scheme.g2.length) ∧
    ∀ (C : G1) (v : Scalar) (o : Opening G1),
      scheme.verifyBatch [C] v ⟨o.point, [o.value], o.witness⟩ = scheme.verifyOpening C o := by
  refine ⟨fun C W x y => scheme.verify_cases C x y W, fun C o => scheme.verify_cases .., ?_, ?_, ?_,
    ⟨fun C W x y => scheme.verify_shrink C x y W, scheme.verifyOpening_shrink,
      scheme.verifyBatch_shrink, scheme.shrink_shrink, fun _ => eq_shrink_iff⟩, scheme.verifyBatch_singleton⟩
  · intro Cs v o
    exact ⟨verifyBatch_eq_badArguments_iff, scheme.verifyBatch_cases Cs v o⟩
  · rintro g gs h sh hs rfl C W x y
    exact verify_eq_of_key g gs h sh hs C x y W
  · intro hmissing
    have hkey : ¬scheme.HasVerifierKey := by
      rintro ⟨hne, hlen⟩
      exact hmissing.elim hne (by omega)
    refine ⟨fun C W x y => verify_of_no_key hkey C x y W, fun C o => verify_of_no_key hkey .., ?_⟩
    intro Cs v o hne hlen
    rw [verifyBatch_of_fits hne hlen]
    exact verify_of_no_key hkey ..

end Scheme

end PlonkKzg
