import Mathlib.Data.List.GetD
import Mathlib.RingTheory.RootsOfUnity.PrimitiveRoots
import PlonkKzg.Domain.Basic
import PlonkKzg.Proofs.Field.Primality

/-!
# Roots of unity

The roots of unity of the evaluation domains are powers of a generator of all non-zero scalars, so
their orders are exact and the coarser ones are powers of the finer ones.

* `rootOfUnity_primitive` — the root of level `k` has the order `2 ^ k`;
* `rootOfUnity_pow` — it is a power of any finer root;
* `Domain.generator_primitive`, `Domain.finerGenerator_primitive`, `Domain.finerGenerator_pow` —
  the same for a domain;
* `geometric_append`, `map_mul_geometric`, `map_pow_geometric`, `getD_geometric` — progressions by
  parts and by terms;
* `geometric_nodup` — the powers of a primitive root are different;
* `Domain.mem_elements_iff`, `Domain.mem_elements_iff_pow_size` — the elements, as powers of the
  generator and as roots of unity.
-/

namespace PlonkKzg

/-! ### Geometric progressions -/

theorem geometric_append (start ratio : Scalar) (m n : Nat) :
    geometric start ratio m ++ geometric (start * ratio ^ m) ratio n =
      geometric start ratio (m + n) := by
  induction m generalizing start with
  | zero => simp [geometric]
  | succ m ih =>
      rw [Nat.succ_add, geometric, geometric, List.cons_append, ← ih, pow_succ', mul_assoc]

/-- Scaling a progression scales its start. -/
theorem map_mul_geometric (factor start ratio : Scalar) (n : Nat) :
    (geometric start ratio n).map (factor * ·) = geometric (factor * start) ratio n := by
  induction n generalizing start with
  | zero => rfl
  | succ n ih => rw [geometric, geometric, List.map_cons, ih, mul_assoc]

theorem map_pow_geometric (start ratio : Scalar) (n e : Nat) :
    (geometric start ratio n).map (· ^ e) = geometric (start ^ e) (ratio ^ e) n := by
  induction n generalizing start with
  | zero => rfl
  | succ n ih => rw [geometric, geometric, List.map_cons, ih, mul_pow]

theorem geometric_eq_map (start ratio : Scalar) (n : Nat) :
    geometric start ratio n = (List.range n).map fun i => start * ratio ^ i := by
  induction n generalizing start with
  | zero => rfl
  | succ n ih =>
      rw [geometric, ih, List.range_succ_eq_map, List.map_cons, List.map_map]
      simp [pow_succ', mul_assoc, Function.comp_def]

theorem getD_geometric (start ratio : Scalar) {n i : Nat} (h : i < n) (d : Scalar) :
    (geometric start ratio n).getD i d = start * ratio ^ i := by
  rw [geometric_eq_map, List.getD_eq_getElem _ _ (by simpa using h)]
  simp

theorem mem_geometric_iff {start ratio x : Scalar} {n : Nat} :
    x ∈ geometric start ratio n ↔ ∃ i < n, start * ratio ^ i = x := by
  rw [geometric_eq_map]
  simp

/-! ### Orders -/

theorem two_pow_dvd {k : Nat} (hk : k ≤ maxLog) : 2 ^ k ∣ Scalar.order - 1 :=
  Dvd.dvd.trans (Nat.pow_dvd_pow 2 hk) (by decide)

/-- The fixed generator generates the whole multiplicative group, by the Lucas test. -/
theorem generator_primitive : IsPrimitiveRoot Scalar.generator (Scalar.order - 1) :=
  Scalar.orderOf_generator ▸ IsPrimitiveRoot.orderOf Scalar.generator

theorem rootOfUnity_eq_pow (k : Nat) :
    rootOfUnity k = Scalar.generator ^ ((Scalar.order - 1) / 2 ^ k) :=
  power_eq_pow _ _

/-- The root for `2 ^ k` has that order. -/
theorem rootOfUnity_primitive {k : Nat} (hk : k ≤ maxLog) :
    IsPrimitiveRoot (rootOfUnity k) (2 ^ k) := by
  rw [rootOfUnity_eq_pow]
  exact generator_primitive.pow (by decide) (Nat.div_mul_cancel (two_pow_dvd hk)).symm

/-- A coarser root is the power of a finer one. -/
theorem rootOfUnity_pow {k j : Nat} (h : k + j ≤ maxLog) :
    rootOfUnity (k + j) ^ 2 ^ j = rootOfUnity k := by
  have hdvd : 2 ^ j ∣ (Scalar.order - 1) / 2 ^ k := by
    rw [Nat.dvd_div_iff_mul_dvd (two_pow_dvd (by omega)), ← pow_add]
    exact two_pow_dvd h
  rw [rootOfUnity_eq_pow, rootOfUnity_eq_pow, ← pow_mul, pow_add, ← Nat.div_div_eq_div_mul,
    Nat.div_mul_cancel hdvd]

/-- Half way round, a root of unity of even order is minus one. -/
theorem pow_half_eq_neg_one {w : Scalar} {k : Nat} (h : IsPrimitiveRoot w (2 ^ (k + 1))) :
    w ^ 2 ^ k = -1 :=
  (h.pow (by positivity) (pow_succ 2 k)).eq_neg_one_of_two_right

/-- A progression whose ratio has the order of its length does not come back. -/
theorem geometric_nodup {start w : Scalar} {n : Nat} (hw : IsPrimitiveRoot w n)
    (hstart : start ≠ 0) : (geometric start w n).Nodup := by
  rw [geometric_eq_map]
  refine List.Nodup.map_on ?_ List.nodup_range
  intro i hi j hj h
  exact hw.pow_inj (List.mem_range.1 hi) (List.mem_range.1 hj) (mul_left_cancel₀ hstart h)

/-- Squaring halves the order of a root. -/
theorem primitive_mul_self {w : Scalar} {k : Nat} (h : IsPrimitiveRoot w (2 ^ (k + 1))) :
    IsPrimitiveRoot (w * w) (2 ^ k) := by
  rw [← pow_two]
  exact h.pow (by positivity) (pow_succ' 2 k)

namespace Domain

variable (d : Domain)

theorem size_eq : d.size = 2 ^ d.log := rfl

theorem size_pos : 0 < d.size := by
  rw [size_eq]
  positivity

theorem size_le_two_pow : d.size ≤ 2 ^ maxLog :=
  Nat.pow_le_pow_right (by decide) (Nat.le_trans (Nat.le_add_right _ _) d.bounded)

/-- The order of the finer root is within the bound too. -/
theorem size_mul_two_pow_depth_le : d.size * 2 ^ d.depth ≤ 2 ^ maxLog := by
  rw [size_eq, ← pow_add]
  exact Nat.pow_le_pow_right (by decide) d.bounded

/-- The generator of a domain has the order of its size. -/
theorem generator_primitive : IsPrimitiveRoot d.generator d.size :=
  rootOfUnity_primitive (Nat.le_trans (Nat.le_add_right _ _) d.bounded)

/-- The finer generator has the order of the size with the depth added. -/
theorem finerGenerator_primitive : IsPrimitiveRoot d.finerGenerator (2 ^ (d.log + d.depth)) :=
  rootOfUnity_primitive d.bounded

/-- The generator is a power of the finer one. -/
theorem finerGenerator_pow : d.finerGenerator ^ 2 ^ d.depth = d.generator :=
  rootOfUnity_pow d.bounded

theorem generator_ne_zero : d.generator ≠ 0 := d.generator_primitive.ne_zero d.size_pos.ne'

theorem finerGenerator_ne_zero : d.finerGenerator ≠ 0 :=
  d.finerGenerator_primitive.ne_zero (by positivity)

/-- The size is not a multiple of the characteristic. -/
theorem size_cast_ne_zero : (Scalar.ofNat d.size : Scalar) ≠ 0 := by
  have hlt : d.size < Scalar.order := Nat.lt_of_le_of_lt d.size_le_two_pow (by decide)
  intro h
  have hval : d.size % Scalar.order = 0 := congrArg Residue.val h
  rw [Nat.mod_eq_of_lt hlt] at hval
  exact absurd hval d.size_pos.ne'

theorem element_eq_pow (i : Nat) : d.element i = d.generator ^ i := power_eq_pow _ _

theorem cosetShift_eq_pow (coset : Nat) : d.cosetShift coset = d.finerGenerator ^ coset :=
  power_eq_pow _ _

theorem elements_length : d.elements.length = d.size := geometric_length _ _ _

theorem mem_elements_iff {x : Scalar} : x ∈ d.elements ↔ ∃ i < d.size, d.generator ^ i = x := by
  rw [elements, mem_geometric_iff]
  simp only [one_mul]

/-- The elements are distinct. -/
theorem elements_nodup : d.elements.Nodup :=
  geometric_nodup d.generator_primitive one_ne_zero

/-- Every element is a root of the vanishing polynomial. -/
theorem pow_size_of_mem_elements {x : Scalar} (h : x ∈ d.elements) : x ^ d.size = 1 := by
  obtain ⟨i, -, rfl⟩ := d.mem_elements_iff.1 h
  rw [← pow_mul, Nat.mul_comm, pow_mul, d.generator_primitive.pow_eq_one, one_pow]

/-- The elements are all roots of unity of this order. -/
theorem mem_elements_iff_pow_size {x : Scalar} : x ∈ d.elements ↔ x ^ d.size = 1 := by
  refine ⟨d.pow_size_of_mem_elements, fun hx => ?_⟩
  have : NeZero d.size := ⟨d.size_pos.ne'⟩
  exact d.mem_elements_iff.2 (d.generator_primitive.eq_pow_of_pow_eq_one hx)

end Domain

end PlonkKzg
