import PlonkKzg.Proofs.Commitment.Exponents
import PlonkKzg.Proofs.Curve.Order

/-!
# Commitments keep sums and multiples

A commitment is the value at the secret in the exponent, so what is done to polynomials can be done
to their commitments instead. Leading coefficients that cancel and zeros at the high end change how
many parameters are used, but not the commitment.

* `Scheme.commit_ofSecret` — the commitment to a polynomial, or the refusal of one that is too long;
* `Scheme.commit_ofSecret_add`, `Scheme.commit_ofSecret_sub`, `Scheme.commit_ofSecret_scale`,
  `Scheme.commit_ofSecret_padded` — sums, differences, multiples and zeros at the high end;
* `Scheme.setup_commitments` — all of it for the schemes that a setup makes.
-/

namespace PlonkKzg

namespace Scheme

section

variable (G₁ G₂ : Type) [AddCommGroup G₁] [Module Scalar G₁] [SMul Scalar G₂]
  [Generator G₁] [Generator G₂] {d : Nat} {s : Scalar} {p q : Poly} {C D : G₁}

/-- A polynomial with stored coefficients is committed to if there are enough parameters. -/
theorem commit_ofSecret (hne : p.coefs ≠ []) : (ofSecret d s : Scheme G₁ G₂).commit p =
    if p.coefs.length ≤ d + 1 then .ok (p.eval s • Generator.generator)
    else .error (.error .degreeTooHigh) := by
  split
  · rename_i hle
    exact commit_ofSecret_eq_ok_iff.2 ⟨hne, hle, rfl⟩
  · rename_i hlong
    have hparameters : (ofSecret d s : Scheme G₁ G₂).g1.length = d + 1 := powers_length ..
    rw [commit, Poly.degree, hparameters, if_pos (by omega)]

theorem commit_ofSecret_add (hp : (ofSecret d s : Scheme G₁ G₂).commit p = .ok C)
    (hq : (ofSecret d s : Scheme G₁ G₂).commit q = .ok D) :
    (ofSecret d s : Scheme G₁ G₂).commit (p + q) = .ok (C + D) := by
  obtain ⟨-, hplen, rfl⟩ := commit_ofSecret_eq_ok_iff.1 hp
  obtain ⟨-, hqlen, rfl⟩ := commit_ofSecret_eq_ok_iff.1 hq
  refine commit_ofSecret_eq_ok_iff.2 ⟨Poly.ofCoefs_coefs_ne_nil _,
    Poly.add_length_le hplen hqlen (Nat.succ_pos d), ?_⟩
  rw [Poly.eval_add, add_smul]

theorem commit_ofSecret_sub (hp : (ofSecret d s : Scheme G₁ G₂).commit p = .ok C)
    (hq : (ofSecret d s : Scheme G₁ G₂).commit q = .ok D) :
    (ofSecret d s : Scheme G₁ G₂).commit (p - q) = .ok (C - D) := by
  obtain ⟨-, hplen, rfl⟩ := commit_ofSecret_eq_ok_iff.1 hp
  obtain ⟨-, hqlen, rfl⟩ := commit_ofSecret_eq_ok_iff.1 hq
  refine commit_ofSecret_eq_ok_iff.2 ⟨Poly.ofCoefs_coefs_ne_nil _,
    Poly.sub_length_le hplen hqlen (Nat.succ_pos d), ?_⟩
  rw [Poly.eval_sub, sub_smul]

theorem commit_ofSecret_scale (k : Scalar) (hp : (ofSecret d s : Scheme G₁ G₂).commit p = .ok C) :
    (ofSecret d s : Scheme G₁ G₂).commit (.scale k p) = .ok (k • C) := by
  obtain ⟨-, hlen, rfl⟩ := commit_ofSecret_eq_ok_iff.1 hp
  refine commit_ofSecret_eq_ok_iff.2 ⟨Poly.ofCoefs_coefs_ne_nil _,
    Poly.scale_length_le k hlen (Nat.succ_pos d), ?_⟩
  rw [Poly.eval_scale, mul_smul]

theorem commit_ofSecret_padded {n : Nat} (hp : (ofSecret d s : Scheme G₁ G₂).commit p = .ok C)
    (hlen : p.coefs.length + n ≤ d + 1) :
    (ofSecret d s : Scheme G₁ G₂).commit ⟨p.coefs ++ List.replicate n 0⟩ = .ok C := by
  obtain ⟨hne, -, rfl⟩ := commit_ofSecret_eq_ok_iff.1 hp
  refine commit_ofSecret_eq_ok_iff.2 ⟨List.append_ne_nil_of_left_ne_nil hne _, ?_, ?_⟩
  · rwa [List.length_append, List.length_replicate]
  · rw [Poly.eval_append_zeros]

end

/-- A setup that draws the secret `s` makes the scheme of `s`, if there can be a table of that size.
In the scheme of a secret, whatever it is, a commitment is the multiple of the base point by the
value at the secret, and a polynomial with too many stored coefficients is refused. So commitments
are added, subtracted and multiplied like the polynomials, and zeros at the high end of a polynomial
do not show. -/
theorem setup_commitments (d : Nat) (s : Scalar) :
    let scheme : Scheme G1 G2 := ofSecret d s
    (∀ g : Rng, (Scalar.random.run g).1 = s → ((setup d).run g).1 =
      if TableFits (d + 1) pointWidth then .ok scheme else .error (.misuse .tableTooLarge)) ∧
    (∀ p : Poly, p.coefs ≠ [] → scheme.commit p =
      if p.coefs.length ≤ d + 1 then .ok (p.eval s • G1.generator)
      else .error (.error .degreeTooHigh)) ∧
    (∀ (p q : Poly) (C D : G1), scheme.commit p = .ok C → scheme.commit q = .ok D →
      scheme.commit (p + q) = .ok (C + D) ∧ scheme.commit (p - q) = .ok (C - D)) ∧
    (∀ (k : Scalar) (p : Poly) (C : G1), scheme.commit p = .ok C →
      scheme.commit (.scale k p) = .ok (k • C)) ∧
    ∀ (p : Poly) (C : G1) (n : Nat), scheme.commit p = .ok C → p.coefs.length + n ≤ d + 1 →
      scheme.commit ⟨p.coefs ++ List.replicate n 0⟩ = .ok C := by
  intro scheme
  refine ⟨?_, fun p => commit_ofSecret G1 G2, ?_, fun k p C => commit_ofSecret_scale G1 G2 k,
    fun p C n => commit_ofSecret_padded G1 G2⟩
  · rintro g rfl
    exact setup_run d g
  · intro p q C D hp hq
    exact ⟨commit_ofSecret_add G1 G2 hp hq, commit_ofSecret_sub G1 G2 hp hq⟩

example : (ofSecret 2 (.ofNat 3) : Scheme Scalar Scalar).commit ⟨[1, 0, 1]⟩ = .ok (.ofNat 10) := by
  decide

end Scheme

end PlonkKzg
