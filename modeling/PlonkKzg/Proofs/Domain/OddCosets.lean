import PlonkKzg.Domain.Interpolation
import PlonkKzg.Proofs.Domain.Root
import PlonkKzg.Proofs.Field.Inversion

/-!
# The odd cosets of a domain

A domain of any depth lists four shifts of its elements, by the odd powers of the finer root below the
eighth. The depth decides how far these shifts are from the elements and from each other: they miss
the elements unless the depth is zero, and they are four different cosets from depth three on.

* `Domain.cosetExponent`, `Domain.cosetPoints_eq_map` — a listed point as a power of the finer root;
* `Domain.getElem?_cosetPoints` — the listed points by the element and the shift;
* `Domain.odd_pow_size_eq_one_iff`, `Domain.pow_size_of_mem_cosetPoints_iff` — the polynomial that
  vanishes on the elements does not vanish at these points;
* `Domain.cosetExponent_div_mod`, `Domain.cosetExponent_injective` — from depth three on, the exponent
  tells the element and the shift;
* `Domain.exists_cosetPoint_eq`, `Domain.cosetPoints_nodup_iff` — so the points are different, and
  below it they are not;
* `Domain.vanishingInverses_eq`, `Domain.vanishingInverses_mul` — the inverses, each of them for a
  whole coset;
* `Domain.vanishingInverses_oddCosets` — what the inverses are for, and when there are none.
-/

namespace PlonkKzg

/-- A table of rows of one length, row after row. -/
theorem flatMap_range_map {α : Type} (f : Nat → Nat → α) (m n : Nat) :
    ((List.range m).flatMap fun i => (List.range n).map (f i)) =
      (List.range (n * m)).map fun k => f (k / n) (k % n) := by
  induction m with
  | zero => rfl
  | succ m ih =>
      rw [List.range_succ, List.flatMap_append, ih, List.flatMap_singleton, Nat.mul_succ,
        List.range_add, List.map_append, List.map_map]
      congr 1
      refine List.map_congr_left fun j hj => ?_
      have hlt : j < n := List.mem_range.1 hj
      rw [Function.comp_apply, Nat.mul_add_div (Nat.zero_lt_of_lt hlt), Nat.div_eq_of_lt hlt,
        Nat.add_zero, Nat.mul_add_mod, Nat.mod_eq_of_lt hlt]

namespace Domain

variable (d : Domain)

/-! ### The listed points -/

/-- The exponent of the finer root at a place of the listed points. -/
def cosetExponent (m : Nat) : Nat := 2 ^ d.depth * (m / cosetCount) + (2 * (m % cosetCount) + 1)

/-- The exponent of the finer root at place `cosetCount * i + j`. -/
theorem cosetExponent_place (i : Nat) {j : Nat} (hj : j < cosetCount) :
    d.cosetExponent (cosetCount * i + j) = 2 ^ d.depth * i + (2 * j + 1) := by
  rw [cosetExponent, Nat.mul_add_div (by decide), Nat.div_eq_of_lt hj, Nat.add_zero,
    Nat.mul_add_mod, Nat.mod_eq_of_lt hj]

/-- An element of the domain, moved to a coset. -/
theorem finerGenerator_pow_add (i c : Nat) :
    d.finerGenerator ^ (2 ^ d.depth * i + c) = d.generator ^ i * d.finerGenerator ^ c := by
  rw [pow_add, pow_mul, finerGenerator_pow]

theorem generator_pow_mod (i : Nat) : d.generator ^ (i % d.size) = d.generator ^ i := by
  have hmod := pow_mod_orderOf d.generator i
  rwa [← d.generator_primitive.eq_orderOf] at hmod

theorem cosetPoints_eq_map : d.cosetPoints =
    (List.range (cosetCount * d.size)).map fun m => d.finerGenerator ^ d.cosetExponent m := by
  have hshift : ∀ i j, d.generator ^ i *
      (d.finerGenerator * (d.finerGenerator * d.finerGenerator) ^ j) =
        d.generator ^ i * d.finerGenerator ^ (2 * j + 1) := by
    intro i j
    rw [← pow_two, ← pow_mul, ← pow_succ']
  simp only [cosetPoints, elements, geometric_eq_map, one_mul, List.flatMap_map, List.map_map,
    Function.comp_def, hshift]
  rw [flatMap_range_map fun i j => d.generator ^ i * d.finerGenerator ^ (2 * j + 1)]
  simp only [cosetExponent, finerGenerator_pow_add]

/-- Which point stands at place `cosetCount * i + j`. -/
theorem getElem?_cosetPoints {i j : Nat} (hi : i < d.size) (hj : j < cosetCount) :
    d.cosetPoints[cosetCount * i + j]? =
      some (d.generator ^ i * d.finerGenerator ^ (2 * j + 1)) := by
  have hlt : cosetCount * i + j < cosetCount * d.size := by
    rw [cosetCount] at hj ⊢
    omega
  rw [cosetPoints_eq_map, List.getElem?_map, List.getElem?_range hlt, Option.map_some,
    cosetExponent_place d i hj, finerGenerator_pow_add]

/-! ### The elements -/

/-- Raised to the size, the finer root has the order of the depth. -/
theorem finerGenerator_pow_size_primitive :
    IsPrimitiveRoot (d.finerGenerator ^ d.size) (2 ^ d.depth) := by
  refine d.finerGenerator_primitive.pow (by positivity) ?_
  rw [pow_add, size_eq]

/-- The order is a power of two, so it divides an odd number only if it is one. -/
theorem odd_pow_size_eq_one_iff (j : Nat) :
    (d.finerGenerator ^ (2 * j + 1)) ^ d.size = 1 ↔ d.depth = 0 := by
  rw [← pow_mul, mul_comm, pow_mul, d.finerGenerator_pow_size_primitive.pow_eq_one_iff_dvd]
  constructor
  · intro hdvd
    by_contra hne
    have htwo : 2 ∣ 2 * j + 1 := (dvd_pow_self 2 hne).trans hdvd
    omega
  · intro hzero
    rw [hzero, pow_zero]
    exact one_dvd _

/-- The element does not matter, only the shift does. -/
theorem cosetPoint_pow_size (i c : Nat) :
    (d.generator ^ i * d.finerGenerator ^ c) ^ d.size = (d.finerGenerator ^ c) ^ d.size := by
  rw [mul_pow, ← pow_mul, Nat.mul_comm, pow_mul, d.generator_primitive.pow_eq_one, one_pow, one_mul]

/-- A coset point lies in the domain only if there is no depth. -/
theorem cosetPoint_pow_size_eq_one_iff (i j : Nat) :
    (d.generator ^ i * d.finerGenerator ^ (2 * j + 1)) ^ d.size = 1 ↔ d.depth = 0 := by
  rw [cosetPoint_pow_size, odd_pow_size_eq_one_iff]

theorem pow_size_of_mem_cosetPoints_iff {x : Scalar} (hx : x ∈ d.cosetPoints) :
    x ^ d.size = 1 ↔ d.depth = 0 := by
  rw [cosetPoints_eq_map] at hx
  obtain ⟨m, -, rfl⟩ := List.mem_map.1 hx
  rw [cosetExponent, finerGenerator_pow_add, cosetPoint_pow_size_eq_one_iff]

/-! ### Each other -/

variable {d}

theorem cosetExponent_div_mod (h : 3 ≤ d.depth) (m : Nat) :
    d.cosetExponent m / 2 ^ d.depth = m / cosetCount ∧
      d.cosetExponent m % 2 ^ d.depth = 2 * (m % cosetCount) + 1 := by
  have hmod : m % cosetCount < 4 := Nat.mod_lt m (by decide)
  have hpow : 2 ^ 3 ≤ 2 ^ d.depth := Nat.pow_le_pow_right (by decide) h
  have hrest : 2 * (m % cosetCount) + 1 < 2 ^ d.depth := by omega
  rw [cosetExponent, Nat.mul_add_div (Nat.two_pow_pos d.depth), Nat.div_eq_of_lt hrest,
    Nat.add_zero, Nat.mul_add_mod, Nat.mod_eq_of_lt hrest]
  exact ⟨rfl, rfl⟩

theorem cosetExponent_lt (h : 3 ≤ d.depth) {m : Nat} (hm : m < cosetCount * d.size) :
    d.cosetExponent m < 2 ^ (d.log + d.depth) := by
  rw [pow_add, ← size_eq, ← Nat.div_lt_iff_lt_mul (Nat.two_pow_pos d.depth),
    (cosetExponent_div_mod h m).1]
  exact Nat.div_lt_of_lt_mul hm

/-- From depth three on, different places have different exponents. -/
theorem cosetExponent_injective (h : 3 ≤ d.depth) : Function.Injective d.cosetExponent := by
  intro m m' heq
  obtain ⟨hdiv, hmod⟩ := cosetExponent_div_mod h m
  obtain ⟨hdiv', hmod'⟩ := cosetExponent_div_mod h m'
  rw [heq] at hdiv hmod
  have hplace : m / cosetCount = m' / cosetCount := hdiv.symm.trans hdiv'
  have hshift : m % cosetCount = m' % cosetCount := by omega
  rw [← Nat.div_add_mod m cosetCount, ← Nat.div_add_mod m' cosetCount, hplace, hshift]

/-- At a lower depth, a later element moved by the first shift is the first one moved by a later
shift. -/
theorem exists_cosetPoint_eq (h : d.depth < 3) : ∃ i < d.size, ∃ j < cosetCount, 0 < j ∧
    d.finerGenerator ^ d.cosetExponent (cosetCount * i) =
      d.finerGenerator ^ d.cosetExponent j := by
  obtain ⟨k, j, hj, hpos, heq⟩ : ∃ k j, j < cosetCount ∧ 0 < j ∧ 2 ^ d.depth * k = 2 * j := by
    interval_cases d.depth
    · exact ⟨2, 1, by decide, by decide, rfl⟩
    · exact ⟨1, 1, by decide, by decide, rfl⟩
    · exact ⟨1, 2, by decide, by decide, rfl⟩
  refine ⟨k % d.size, Nat.mod_lt _ d.size_pos, j, hj, hpos, ?_⟩
  have hfirst := d.cosetExponent_place (k % d.size) (j := 0) (by decide)
  have hlater := d.cosetExponent_place 0 hj
  rw [Nat.add_zero] at hfirst
  rw [Nat.mul_zero, Nat.zero_add, Nat.mul_zero, Nat.zero_add] at hlater
  rw [hfirst, hlater, finerGenerator_pow_add, generator_pow_mod, ← heq, finerGenerator_pow_add,
    Nat.mul_zero, Nat.zero_add]

/-- The listed points are distinct exactly from depth three on. -/
theorem cosetPoints_nodup_iff : d.cosetPoints.Nodup ↔ 3 ≤ d.depth := by
  rw [cosetPoints_eq_map, List.nodup_map_iff_inj_on List.nodup_range]
  simp only [List.mem_range]
  constructor
  · intro hinj
    by_contra hlow
    obtain ⟨i, hi, j, hj, hpos, heq⟩ := exists_cosetPoint_eq (Nat.lt_of_not_le hlow)
    have hplace := hinj (cosetCount * i) (Nat.mul_lt_mul_of_pos_left hi (by decide)) j
      (Nat.lt_of_lt_of_le hj (Nat.le_mul_of_pos_right _ d.size_pos)) heq
    rw [cosetCount] at hplace hj
    omega
  · intro h m hm m' hm' heq
    exact cosetExponent_injective h (d.finerGenerator_primitive.pow_inj (cosetExponent_lt h hm)
      (cosetExponent_lt h hm') heq)

/-! ### The inverses -/

/-- The inverses of `x ^ N - 1` at the first points of the odd cosets, unless these are the cosets of
the domain itself. -/
theorem vanishingInverses_eq (d : Domain) : d.vanishingInverses =
    if d.depth = 0 then .error .divisionByZero
    else .ok ((geometric d.finerGenerator (d.finerGenerator * d.finerGenerator) cosetCount).map
      fun x => (x ^ d.size - 1)⁻¹) := by
  have hvanish : (geometric (power d.finerGenerator d.size)
      (power d.finerGenerator d.size * power d.finerGenerator d.size) cosetCount).map (· - 1) =
      (geometric d.finerGenerator (d.finerGenerator * d.finerGenerator) cosetCount).map
        (fun x => x ^ d.size - 1) := by
    rw [power_eq_pow, ← mul_pow, ← map_pow_geometric, List.map_map]
    rfl
  have hzero : 0 ∈ (geometric d.finerGenerator (d.finerGenerator * d.finerGenerator)
      cosetCount).map (fun x => x ^ d.size - 1) ↔ d.depth = 0 := by
    simp only [List.mem_map, mem_geometric_iff, sub_eq_zero]
    constructor
    · rintro ⟨_, ⟨j, -, rfl⟩, hone⟩
      rwa [← pow_two, ← pow_mul, ← pow_succ', odd_pow_size_eq_one_iff] at hone
    · intro hdepth
      refine ⟨d.finerGenerator, ⟨0, by decide, by rw [pow_zero, mul_one]⟩, ?_⟩
      rw [← pow_one d.finerGenerator]
      exact (d.odd_pow_size_eq_one_iff 0).2 hdepth
  rw [vanishingInverses]
  simp only [hvanish]
  by_cases hdepth : d.depth = 0
  · rw [if_pos hdepth, Scalar.invertAll_eq_error (hzero.2 hdepth)]
  · rw [if_neg hdepth, Scalar.invertAll_eq_ok (hzero.not.2 hdepth), List.map_map]
    rfl

/-- The inverses are missing exactly when the depth is zero. -/
theorem vanishingInverses_eq_error_iff :
    d.vanishingInverses = .error .divisionByZero ↔ d.depth = 0 := by
  rw [vanishingInverses_eq]
  split
  case isTrue h => exact iff_of_true rfl h
  case isFalse h => exact iff_of_false (fun heq => nomatch heq) h

/-- With any depth there are four inverses, and each serves its whole coset. -/
theorem vanishingInverses_mul (h : d.depth ≠ 0) :
    ∃ inverses, d.vanishingInverses = .ok inverses ∧ inverses.length = cosetCount ∧
      ∀ j < cosetCount, ∃ v, inverses[j]? = some v ∧
        ∀ i, v * ((d.generator ^ i * d.finerGenerator ^ (2 * j + 1)) ^ d.size - 1) = 1 := by
  refine ⟨_, (vanishingInverses_eq d).trans (if_neg h), ?_, fun j hj => ?_⟩
  · rw [List.length_map, geometric_length]
  · refine ⟨((d.finerGenerator ^ (2 * j + 1)) ^ d.size - 1)⁻¹, ?_, fun i => ?_⟩
    · rw [geometric_eq_map, List.map_map, List.getElem?_map, List.getElem?_range hj,
        Option.map_some, Function.comp_apply, ← pow_two, ← pow_mul, ← pow_succ']
    · have hne := sub_ne_zero.2 ((d.odd_pow_size_eq_one_iff j).not.2 h)
      have hcancel := inv_mul_cancel₀ hne
      rwa [cosetPoint_pow_size]

/-- There are inverses of `x ^ N - 1` on the odd cosets if and only if the depth is not zero, one for
each coset. The points of these cosets are listed element by element. None of them is an element of
the domain unless the depth is zero, when all of them are, and they are pairwise distinct from
depth three on. -/
theorem vanishingInverses_oddCosets {n depth : Nat} {d : Domain} (hd : ofSize n depth = .ok d) :
    (d.vanishingInverses = .error .divisionByZero ↔ depth = 0) ∧
    (depth ≠ 0 → ∃ inverses, d.vanishingInverses = .ok inverses ∧ inverses.length = 4 ∧
      ∀ j < 4, ∃ v, inverses[j]? = some v ∧
        ∀ i < n, v * ((d.generator ^ i * d.finerGenerator ^ (2 * j + 1)) ^ n - 1) = 1) ∧
    (d.cosetPoints.length = 4 * n ∧ ∀ i < n, ∀ j < 4, d.cosetPoints[4 * i + j]? =
      some (d.generator ^ i * d.finerGenerator ^ (2 * j + 1))) ∧
    (∀ x ∈ d.cosetPoints, x ∈ d.elements ↔ depth = 0) ∧
    (d.cosetPoints.Nodup ↔ 3 ≤ depth) := by
  obtain ⟨rfl, rfl⟩ := ofSize_eq_ok hd
  refine ⟨vanishingInverses_eq_error_iff, fun h => ?_,
    ⟨?_, fun i hi j hj => d.getElem?_cosetPoints hi hj⟩, fun x hx => ?_, cosetPoints_nodup_iff⟩
  · obtain ⟨inverses, hok, hlen, hinverses⟩ := vanishingInverses_mul h
    refine ⟨inverses, hok, hlen, fun j hj => ?_⟩
    obtain ⟨v, hv, hmul⟩ := hinverses j hj
    exact ⟨v, hv, fun i _ => hmul i⟩
  · rw [cosetPoints_eq_map, List.length_map, List.length_range, cosetCount]
  · rw [mem_elements_iff_pow_size, d.pow_size_of_mem_cosetPoints_iff hx]

/-- The domain of eight elements and depth three. -/
theorem vanishingInverses_oddCosets_eight : ∃ d : Domain, ofSize 8 3 = .ok d ∧
    (d.vanishingInverses = .error .divisionByZero ↔ 3 = 0) ∧
    (3 ≠ 0 → ∃ inverses, d.vanishingInverses = .ok inverses ∧ inverses.length = 4 ∧
      ∀ j < 4, ∃ v, inverses[j]? = some v ∧
        ∀ i < 8, v * ((d.generator ^ i * d.finerGenerator ^ (2 * j + 1)) ^ 8 - 1) = 1) ∧
    (d.cosetPoints.length = 4 * 8 ∧ ∀ i < 8, ∀ j < 4, d.cosetPoints[4 * i + j]? =
      some (d.generator ^ i * d.finerGenerator ^ (2 * j + 1))) ∧
    (∀ x ∈ d.cosetPoints, x ∈ d.elements ↔ 3 = 0) ∧
    (d.cosetPoints.Nodup ↔ 3 ≤ 3) := by
  have hd : ofSize 8 3 = .ok ⟨3, 3, by decide⟩ := rfl
  exact ⟨_, hd, vanishingInverses_oddCosets hd⟩

end Domain

end PlonkKzg
