import PlonkKzg.Proofs.Domain.Root

/-!
# Which domains there are

A domain of a size and a depth exists if and only if the size is a power of two and its finer root
is within the two-adic range of the field. All domains stand in one tower of roots of unity: those
whose finer roots have the same order have the same finer root.

* `Domain.ofSize_two_pow`, `Domain.exists_ofSize_iff` — the domains;
* `Domain.ofSize_of_not_isPowerOfTwo`, `Domain.ofSize_two_pow_of_lt` — the sizes that are reported
  for all other requests;
* `Domain.Spans` — orders, inverses and the relation of the two roots of a domain;
* `Domain.finerGenerator_eq_of_order_eq` — the finer root depends on its order only;
* `Domain.ofSize_tower` — all of this for every size and depth.
-/

namespace PlonkKzg

namespace Domain

/-! ### The requests that are granted -/

/-- Every power of two within the roots' order has its domain. -/
theorem ofSize_two_pow {k depth : Nat} (h : k + depth ≤ maxLog) :
    ofSize (2 ^ k) depth = .ok ⟨k, depth, h⟩ := by
  have hlog : exactLog2? (2 ^ k) = some k := exactLog2?_two_pow k
  rw [ofSize, hlog]
  exact dif_pos h

theorem two_pow_mul_le_iff {k depth m : Nat} : 2 ^ k * 2 ^ depth ≤ 2 ^ m ↔ k + depth ≤ m := by
  rw [← pow_add]
  exact Nat.pow_le_pow_iff_right (by decide)

/-- A domain exists exactly for a power of two that the roots still reach with the depth. -/
theorem exists_ofSize_iff {n depth : Nat} :
    (∃ d, ofSize n depth = .ok d) ↔ n.isPowerOfTwo ∧ n * 2 ^ depth ≤ 2 ^ maxLog := by
  constructor
  · rintro ⟨d, hd⟩
    obtain ⟨rfl, rfl⟩ := ofSize_eq_ok hd
    exact ⟨⟨d.log, d.size_eq⟩, d.size_mul_two_pow_depth_le⟩
  · rintro ⟨⟨k, rfl⟩, hle⟩
    exact ⟨_, ofSize_two_pow (two_pow_mul_le_iff.1 hle)⟩

/-! ### The requests that are refused -/

/-- Any other size is refused, and the error names it. -/
theorem ofSize_of_not_isPowerOfTwo {n : Nat} (h : ¬n.isPowerOfTwo) (depth : Nat) :
    ofSize n depth = .error (.noSubgroup n) := by
  have hlog : exactLog2? n = none :=
    Option.eq_none_iff_forall_ne_some.2 fun k hk => h ⟨k, exactLog2?_eq_some_iff.1 hk⟩
  rw [ofSize, hlog]

/-- Above the two-adic range, the error names the size of the finer subgroup, unless the domain
itself is too large or the size of the finer subgroup is not a machine word. -/
theorem ofSize_two_pow_of_lt {k depth : Nat} (h : maxLog < k + depth) :
    ofSize (2 ^ k) depth = .error (.noSubgroup
      (if 2 ^ k ≤ 2 ^ maxLog ∧ 2 ^ k * 2 ^ depth < 2 ^ 64 then 2 ^ k * 2 ^ depth else 2 ^ k)) := by
  have hlog : exactLog2? (2 ^ k) = some k := exactLog2?_two_pow k
  have hsmall : 2 ^ k ≤ 2 ^ maxLog ↔ k ≤ maxLog := Nat.pow_le_pow_iff_right (by decide)
  have hword : 2 ^ k * 2 ^ depth < 2 ^ 64 ↔ k + depth < 64 := by
    rw [← pow_add]
    exact Nat.pow_lt_pow_iff_right (by decide)
  rw [ofSize, hlog]
  simp only [hsmall, hword]
  rw [dif_neg (Nat.not_le.2 h), ← pow_add]
  by_cases hbig : 64 ≤ k + depth ∨ maxLog < k
  · rw [if_pos hbig, if_neg (by omega)]
  · rw [if_neg hbig, if_pos (by omega)]
    rfl

/-! ### The tower -/

/-- The roots of a domain of a size and a depth, their orders and inverses. -/
structure Spans (d : Domain) (n depth : Nat) : Prop where
  size : d.size = n
  orderOf_generator : orderOf d.generator = n
  orderOf_finerGenerator : orderOf d.finerGenerator = n * 2 ^ depth
  /-- The generator is so many halvings coarser than the finer root. -/
  finerGenerator_pow : d.finerGenerator ^ 2 ^ depth = d.generator
  generatorInv : d.generatorInv * d.generator = 1
  finerGeneratorInv : d.finerGeneratorInv * d.finerGenerator = 1
  sizeInv : d.sizeInv * Scalar.ofNat n = 1
  depth : d.depth = depth

/-- The generator and the finer generator have the orders they are made for. -/
theorem spans (d : Domain) : d.Spans d.size d.depth where
  size := rfl
  orderOf_generator := d.generator_primitive.eq_orderOf.symm
  orderOf_finerGenerator := by
    rw [← d.finerGenerator_primitive.eq_orderOf, pow_add, size_eq]
  finerGenerator_pow := d.finerGenerator_pow
  generatorInv := by rw [generatorInv, inv_mul_cancel₀ d.generator_ne_zero]
  finerGeneratorInv := by rw [finerGeneratorInv, inv_mul_cancel₀ d.finerGenerator_ne_zero]
  sizeInv := by rw [sizeInv, inv_mul_cancel₀ d.size_cast_ne_zero]
  depth := rfl

/-- The finer root is the power of the field's generator that has its order. -/
theorem finerGenerator_eq_pow (d : Domain) :
    d.finerGenerator = Scalar.generator ^ ((Scalar.order - 1) / (d.size * 2 ^ d.depth)) := by
  rw [finerGenerator, rootOfUnity_eq_pow, pow_add, size_eq]

/-- Domains of one total order share their finer generator. -/
theorem finerGenerator_eq_of_order_eq {d e : Domain}
    (h : d.size * 2 ^ d.depth = e.size * 2 ^ e.depth) : d.finerGenerator = e.finerGenerator := by
  rw [finerGenerator_eq_pow, finerGenerator_eq_pow, h]

/-- For every size and depth there is a domain, or the error that names the missing subgroup; and
all domains there are belong to one tower. -/
theorem ofSize_tower (n depth : Nat) :
    ((∃ d, ofSize n depth = .ok d) ↔ n.isPowerOfTwo ∧ n * 2 ^ depth ≤ 2 ^ 28) ∧
    (¬(n.isPowerOfTwo ∧ n * 2 ^ depth ≤ 2 ^ 28) → ofSize n depth = .error (.noSubgroup
      (if n.isPowerOfTwo ∧ n ≤ 2 ^ 28 ∧ n * 2 ^ depth < 2 ^ 64 then n * 2 ^ depth else n))) ∧
    ∀ d, ofSize n depth = .ok d → d.Spans n depth ∧
      ∀ (m depth' : Nat) (e : Domain), ofSize m depth' = .ok e →
        n * 2 ^ depth = m * 2 ^ depth' → d.finerGenerator = e.finerGenerator := by
  refine ⟨exists_ofSize_iff, fun hnot => ?_, fun d hd => ?_⟩
  · by_cases hpow : n.isPowerOfTwo
    · obtain ⟨k, rfl⟩ := hpow
      have hlt : maxLog < k + depth := by
        rw [← Nat.not_le, ← two_pow_mul_le_iff]
        exact fun hle => hnot ⟨⟨k, rfl⟩, hle⟩
      have hsame : (2 ^ k).isPowerOfTwo ∧ 2 ^ k ≤ 2 ^ 28 ∧ 2 ^ k * 2 ^ depth < 2 ^ 64 ↔
          2 ^ k ≤ 2 ^ maxLog ∧ 2 ^ k * 2 ^ depth < 2 ^ 64 := and_iff_right ⟨k, rfl⟩
      rw [ofSize_two_pow_of_lt hlt, if_congr hsame rfl rfl]
    · rw [ofSize_of_not_isPowerOfTwo hpow, if_neg fun h => hpow h.1]
  · obtain ⟨rfl, rfl⟩ := ofSize_eq_ok hd
    refine ⟨d.spans, fun m depth' e he horder => ?_⟩
    obtain ⟨rfl, rfl⟩ := ofSize_eq_ok he
    exact finerGenerator_eq_of_order_eq horder

/-- The largest rows and their quotient share a finer root. One more halving is beyond the range of
the field, and 64 of them are beyond a machine word. -/
theorem ofSize_tower_largest : ∃ d q : Domain,
    ofSize (2 ^ 25) 3 = .ok d ∧ ofSize (2 ^ 27) 1 = .ok q ∧ d.Spans (2 ^ 25) 3 ∧
    d.finerGenerator = q.finerGenerator ∧
    ofSize (2 ^ 25) 4 = .error (.noSubgroup (2 ^ 29)) ∧
    ofSize (2 ^ 25) 64 = .error (.noSubgroup (2 ^ 25)) ∧
    ofSize (2 ^ 29) 0 = .error (.noSubgroup (2 ^ 29)) ∧
    ofSize 12 0 = .error (.noSubgroup 12) := by
  have hd : ofSize (2 ^ 25) 3 = .ok ⟨25, 3, by decide⟩ := rfl
  have hq : ofSize (2 ^ 27) 1 = .ok ⟨27, 1, by decide⟩ := rfl
  obtain ⟨-, -, htower⟩ := ofSize_tower (2 ^ 25) 3
  obtain ⟨hspans, hsame⟩ := htower _ hd
  exact ⟨_, _, hd, hq, hspans, hsame _ _ _ hq (by decide), (ofSize_tower (2 ^ 25) 4).2.1 (by decide),
    (ofSize_tower (2 ^ 25) 64).2.1 (by decide), (ofSize_tower (2 ^ 29) 0).2.1 (by decide),
    (ofSize_tower 12 0).2.1 (by decide)⟩

end Domain

end PlonkKzg
