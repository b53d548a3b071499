import PlonkKzg.Prover.Proof
import PlonkKzg.Proofs.Circuit.Renaming
import PlonkKzg.Proofs.Prover.PublicData

/-!
# Proofs do not depend on names

Public data and proofs say what the gates are and which of their wires are joined. The numbers of
the variables, and variables that no gate has, leave no trace in them.

* `Circuit.preprocess_congr` — preprocessing looks at the size of a circuit, at its selectors and
  at its permutation;
* `Preprocessed.proveFrom_congr` — the prover looks at the size and at the columns;
* `Circuit.rename_invariant` — a circuit and an assignment with other names have the same public
  data and the same proofs, or the same errors;
* `Circuit.bit_rename_permutation` — other names among so many variables that a table has no place
  in memory.
-/

namespace PlonkKzg

section

variable {G₁ G₂ : Type} [SMul Scalar G₁] [Zero G₁] [Add G₁]

/-- Preprocessing depends on the selectors, the sizes and the permutation only. -/
theorem Circuit.preprocess_congr {c c' : Circuit} (hsize : c'.size = c.size)
    (hdomain : c'.domainSize = c.domainSize)
    (hselectors : ∀ n, c'.selectorColumns n = c.selectorColumns n)
    (hperm : ∀ n, c'.permutation n = c.permutation n) (scheme : Scheme G₁ G₂) :
    c'.preprocess scheme = c.preprocess scheme := by
  simp only [preprocess, hdomain, hselectors, hperm, hsize]

namespace Preprocessed

variable [Encoded G₁] {pd : Preprocessed G₁ G₂} {c c' : Circuit} {w w' : List Scalar}

/-- A run depends on the circuit and the assignment through the wire columns only. -/
theorem proveFrom_congr (hdomain : c'.domainSize = c.domainSize)
    (hcolumns : c'.wireColumns w' pd.domain.size = c.wireColumns w pd.domain.size) {σ : Type}
    (source : ChallengeSource σ) :
    pd.proveFrom source c' w' = pd.proveFrom source c w := by
  have hfit : pd.requireFit c' = pd.requireFit c := by rw [requireFit, requireFit, hdomain]
  have hround : pd.wireRound c' w' = pd.wireRound c w := by rw [wireRound, wireRound, hcolumns]
  rw [proveFrom, proveFrom, hfit, hround]

end Preprocessed

namespace Circuit

/-- A circuit whose gates name its variables, and the same circuit with other names: the same
permutations and public data, as long as memory has room for both numbers of variables or for none;
and for assignments with the same values of variable 0 and of the variables on the gates, whatever
the other values are, the same proofs and errors from every challenge and every transcript. -/
theorem rename_invariant [Encoded G₁] {c : Circuit} {m : Variable → Variable} {k : UInt64}
    (hm : c.Renaming m k) (hpos : 0 < c.varCount) (hadmits : ∀ g ∈ c.rows, c.Admits g) :
    ((c.varCount.toNat < 2 ^ 59 ↔ k.toNat < 2 ^ 59) →
      (∀ n, (c.rename m k).permutation n = c.permutation n) ∧
        ∀ scheme : Scheme G₁ G₂, (c.rename m k).preprocess scheme = c.preprocess scheme) ∧
    ∀ w w', c.varCount.toNat ≤ w.length → k.toNat ≤ w'.length → c.SameValues m w w' →
      ∀ pd : Preprocessed G₁ G₂,
        (∀ ch, pd.proveWith (c.rename m k) w' ch = pd.proveWith c w ch) ∧
          ∀ t, pd.prove (c.rename m k) w' t = pd.prove c w t := by
  constructor
  · intro hroom
    have hperm := rename_permutation hm hpos hadmits hroom
    exact ⟨hperm, preprocess_congr (c.rename_size m k) (c.rename_domainSize m k)
      (c.rename_selectorColumns m k) hperm⟩
  · intro w w' hlen hlen' hw pd
    have hcolumns := rename_wireColumns hm.zero hlen hlen' hw pd.domain.size
    have hprove : ∀ {σ : Type} (source : ChallengeSource σ),
        pd.proveFrom source (c.rename m k) w' = pd.proveFrom source c w :=
      fun source => Preprocessed.proveFrom_congr (c.rename_domainSize m k) hcolumns source
    constructor
    · intro ch
      rw [Preprocessed.proveWith, Preprocessed.proveWith, hprove]
    · intro t
      rw [Preprocessed.prove, Preprocessed.prove, hprove]

/-- Variable 1 becomes variable 3 of five. The other three have values that no gate reads. -/
theorem bit_rename_invariant :
    (∀ scheme : Scheme G1 G2,
      (⟨[.mul 3 3 3], [], 5⟩ : Circuit).preprocess scheme = bit.preprocess scheme) ∧
    ∀ (pd : Preprocessed G1 G2) (t : Transcript),
      pd.prove ⟨[.mul 3 3 3], [], 5⟩ [0, 7, 8, 1, 9] t = pd.prove bit [0, 1] t := by
  have hm : bit.Renaming (fun v => if v = 1 then 3 else v) 5 := by
    have hlt : ∀ v < bit.varCount, v = 0 ∨ v = 1 := by
      intro v hv
      have hlt : v.toNat < 2 := UInt64.lt_iff_toNat_lt.1 hv
      have hcases : v.toNat = 0 ∨ v.toNat = 1 := by omega
      exact hcases.imp UInt64.toNat_inj.1 UInt64.toNat_inj.1
    refine ⟨by decide, ?_, ?_⟩
    · intro v hv
      rcases hlt v hv with rfl | rfl <;> decide
    · intro u hu v hv
      rcases hlt u hu with rfl | rfl <;> rcases hlt v hv with rfl | rfl <;> decide
  have hw : bit.SameValues (fun v => if v = 1 then 3 else v) [0, 1] [0, 7, 8, 1, 9] := by
    intro v hv
    have hcases : v = 0 ∨ v = 1 := by
      refine hv.imp_right ?_
      rintro ⟨g, hg, hmem⟩
      obtain rfl := List.mem_singleton.1 hg
      simpa [Gate.mul, Wires.toList] using hmem
    rcases hcases with rfl | rfl <;> rfl
  have h := @rename_invariant G1 G2 _ _ _ _ bit _ 5 hm (by decide) (by decide)
  exact ⟨(h.1 (by decide)).2, fun pd => (h.2 _ _ (by decide) (by decide) hw pd).2⟩

/-- Other names change nothing but the number of variables, but a table of so many has no place in
memory. -/
theorem bit_rename_permutation : bit.Renaming id 2305843009213693952 ∧
    (0 < bit.varCount ∧ ∀ g ∈ bit.rows, bit.Admits g) ∧ bit.permutation 2 = .ok [2, 3, 4, 5, 0, 1] ∧
    (bit.rename id 2305843009213693952).permutation 2 = .error (.misuse .tableTooLarge) := by
  refine ⟨⟨rfl, ?_, fun _ _ _ _ h => h⟩, by decide, by decide, by decide⟩
  intro v hv
  have hlt : bit.varCount < 2305843009213693952 := by decide
  exact UInt64.lt_trans hv hlt

end Circuit

end

end PlonkKzg
