import PlonkKzg.Domain.Transform
import PlonkKzg.Proofs.Domain.BitReversal
import PlonkKzg.Proofs.Domain.Root
import PlonkKzg.Proofs.Poly.Polynomial

/-!
# What the transforms compute

Decimation in frequency evaluates at the powers of the root, and the inverse transform undoes it.

* `geometric_double` — a progression as its even and its odd terms;
* `map_evalCoefs_sums`, `map_evalCoefs_twisted` — the even powers of a root see the sums of the
  halves, the odd ones their twisted differences;
* `bitReversed_decimateInFrequency` — the values at the powers of `w`, in bit-reversed order;
* `evalCoefs_map_geometric_inv` — the transform by the inverse root of the values gives the
  coefficients, times their number;
* `Domain.bitReverse_transform`, `Domain.map_evalCoefs_bitReverse_inverseTransform` — both on the
  cosets of a domain.
-/

namespace PlonkKzg

open PlonkKzg.Poly

/-- A progression of even length weaves two progressions by the squared ratio. -/
theorem geometric_double (start w : Scalar) (n : Nat) :
    geometric start w (n * 2) =
      weave (geometric start (w * w) n) (geometric (start * w) (w * w) n) := by
  induction n generalizing start with
  | zero => rfl
  | succ n ih =>
      have hodd : start * w * (w * w) = start * (w * w) * w := by ring
      have heven : start * w * w = start * (w * w) := mul_assoc _ _ _
      rw [Nat.succ_mul, geometric, geometric, geometric, geometric, weave, hodd, heven, ih]

/-! ### Decimation in frequency -/

section

variable {as : List Scalar} {n : Nat} {x : Scalar}

theorem halves_length (h : as.length = n * 2) :
    (as.take n).length = n ∧ (as.drop n).length = n := by
  rw [List.length_take, List.length_drop]
  omega

/-- Where the power of the half length is one, both halves of the coefficients count alike. -/
theorem evalCoefs_sums (h : as.length = n * 2) (hx : x ^ n = 1) :
    evalCoefs (List.zipWith (· + ·) (as.take n) (as.drop n)) x = evalCoefs as x := by
  obtain ⟨hlow, hhigh⟩ := halves_length h
  have hsplit : evalCoefs as x = evalCoefs (as.take n ++ as.drop n) x := by
    rw [List.take_append_drop]
  rw [hsplit, evalCoefs_append, hlow, hx, one_mul,
    evalCoefs_zipWith_add (hlow.trans hhigh.symm)]

/-- Where it is minus one, the upper half counts negatively. -/
theorem evalCoefs_differences (h : as.length = n * 2) (hx : x ^ n = -1) :
    evalCoefs (List.zipWith (· - ·) (as.take n) (as.drop n)) x = evalCoefs as x := by
  obtain ⟨hlow, hhigh⟩ := halves_length h
  have hsplit : evalCoefs as x = evalCoefs (as.take n ++ as.drop n) x := by
    rw [List.take_append_drop]
  rw [hsplit, evalCoefs_append, hlow, hx, neg_one_mul, ← sub_eq_add_neg,
    evalCoefs_zipWith_sub (hlow.trans hhigh.symm)]

variable {w : Scalar}

/-- The even powers are roots of unity of half the order. -/
theorem even_power_eq_one (hw : w ^ n = -1) (hx : x ∈ geometric 1 (w * w) n) : x ^ n = 1 := by
  obtain ⟨i, -, rfl⟩ := mem_geometric_iff.1 hx
  rw [one_mul, ← pow_mul, Nat.mul_comm, pow_mul, mul_pow, hw, neg_one_mul, neg_neg, one_pow]

/-- The even powers of `w` see the sums of the halves. -/
theorem map_evalCoefs_sums (h : as.length = n * 2) (hw : w ^ n = -1) :
    (geometric 1 (w * w) n).map (evalCoefs (List.zipWith (· + ·) (as.take n) (as.drop n))) =
      (geometric 1 (w * w) n).map (evalCoefs as) :=
  List.map_congr_left fun _ hx => evalCoefs_sums h (even_power_eq_one hw hx)

/-- The odd powers of `w` see the differences, twisted by the powers of `w`. -/
theorem map_evalCoefs_twisted (h : as.length = n * 2) (hw : w ^ n = -1) :
    (geometric 1 (w * w) n).map (evalCoefs (List.zipWith (· * ·)
        (List.zipWith (· - ·) (as.take n) (as.drop n)) (geometric 1 w n))) =
      (geometric (1 * w) (w * w) n).map (evalCoefs as) := by
  obtain ⟨hlow, hhigh⟩ := halves_length h
  have hdiff : (List.zipWith (· - ·) (as.take n) (as.drop n)).length = n := by
    rw [List.length_zipWith, hlow, hhigh, Nat.min_self]
  rw [mul_comm 1 w, ← map_mul_geometric w, List.map_map]
  apply List.map_congr_left
  intro x hx
  have hneg : (w * x) ^ n = -1 := by
    rw [mul_pow, even_power_eq_one hw hx, mul_one, hw]
  rw [evalCoefs_zipWith_geometric hdiff, one_mul, Function.comp_apply]
  exact evalCoefs_differences h hneg

end

/-- Decimation in frequency evaluates at the powers of the root, in reversed order. -/
theorem bitReversed_decimateInFrequency {k : Nat} {w : Scalar} (hw : IsPrimitiveRoot w (2 ^ k))
    {as : List Scalar} (h : as.length = Nat.pow 2 k) :
    bitReversed k (decimateInFrequency k w as) = (geometric 1 w (2 ^ k)).map (evalCoefs as) := by
  induction k generalizing w as with
  | zero =>
      obtain ⟨a, rfl⟩ := List.length_eq_one_iff.1 h
      simp [bitReversed, decimateInFrequency, geometric, evalCoefs]
  | succ k ih =>
      rw [two_pow_succ] at h
      obtain ⟨hlow, hhigh⟩ := halves_length h
      have hsquare : IsPrimitiveRoot (w * w) (2 ^ k) := primitive_mul_self hw
      have hhalf : w ^ Nat.pow 2 k = -1 := pow_half_eq_neg_one hw
      have hsums : (List.zipWith (· + ·) (as.take (Nat.pow 2 k))
          (as.drop (Nat.pow 2 k))).length = Nat.pow 2 k := by
        rw [List.length_zipWith, hlow, hhigh, Nat.min_self]
      have htwisted : (List.zipWith (· * ·) (List.zipWith (· - ·) (as.take (Nat.pow 2 k))
          (as.drop (Nat.pow 2 k))) (geometric 1 w (Nat.pow 2 k))).length = Nat.pow 2 k := by
        rw [List.length_zipWith, List.length_zipWith, hlow, hhigh, geometric_length, Nat.min_self,
          Nat.min_self]
      have hsumValues := (ih hsquare hsums).trans (map_evalCoefs_sums h hhalf)
      have htwistedValues := (ih hsquare htwisted).trans (map_evalCoefs_twisted h hhalf)
      rw [decimateInFrequency, bitReversed_append (decimateInFrequency_length _ hsums)
        (decimateInFrequency_length _ htwisted), hsumValues, htwistedValues, pow_succ,
        geometric_double, map_weave]
      rfl

/-! ### The inverse -/

/-- The powers of a root of unity other than one cancel. -/
theorem sum_pow_eq_zero {z : Scalar} {n : Nat} (hz : z ^ n = 1) (hne : z ≠ 1) :
    ∑ i ∈ Finset.range n, z ^ i = 0 := by
  have h := geom_sum_mul z n
  rw [hz, sub_self] at h
  exact (mul_eq_zero.1 h).resolve_right (sub_ne_zero.2 hne)

/-- The powers of a primitive root are orthogonal. -/
theorem sum_pow_div_pow {w : Scalar} {n : Nat} (hw : IsPrimitiveRoot w n) {m j : Nat} (hm : m < n)
    (hj : j < n) :
    ∑ i ∈ Finset.range n, (w ^ m * (w⁻¹) ^ j) ^ i = if j = m then (n : Scalar) else 0 := by
  have hw0 : w ≠ 0 := hw.ne_zero (by omega)
  split
  · rename_i hjm
    subst hjm
    simp [mul_inv_cancel₀ (pow_ne_zero j hw0)]
  · rename_i hjm
    refine sum_pow_eq_zero ?_ ?_
    · rw [mul_pow, ← pow_mul, ← pow_mul, Nat.mul_comm m, Nat.mul_comm j, pow_mul, pow_mul, inv_pow,
        hw.pow_eq_one, inv_one, one_pow, one_pow, one_mul]
    · rw [inv_pow, ← div_eq_mul_inv]
      intro hone
      exact hjm (hw.pow_inj hm hj (div_eq_one_iff_eq (pow_ne_zero j hw0) |>.1 hone)).symm

/-- Evaluating twice, at a root and its inverse, multiplies by the size. -/
theorem evalCoefs_map_geometric_inv {w : Scalar} {n : Nat} (hw : IsPrimitiveRoot w n)
    {vs : List Scalar} (h : vs.length = n) {m : Nat} (hm : m < n) :
    evalCoefs ((geometric 1 w⁻¹ n).map (evalCoefs vs)) (w ^ m) = n * vs.getD m 0 := by
  -- Both evaluations are sums; exchanged, the inner one runs over the powers of one root.
  have hterm : ∀ i ∈ Finset.range n,
      ((geometric 1 w⁻¹ n).map (evalCoefs vs)).getD i 0 * (w ^ m) ^ i =
        ∑ j ∈ Finset.range n, vs.getD j 0 * (w ^ m * (w⁻¹) ^ j) ^ i := by
    intro i hi
    have hin : i < n := Finset.mem_range.1 hi
    have hget : ((geometric 1 w⁻¹ n).map (evalCoefs vs)).getD i 0 = evalCoefs vs ((w⁻¹) ^ i) := by
      rw [List.getD_eq_getElem _ _ (by simpa using hin), List.getElem_map]
      congr 1
      rw [← List.getD_eq_getElem _ 0 (by simpa using hin), getD_geometric _ _ hin, one_mul]
    rw [hget, evalCoefs_eq_sum, h, Finset.sum_mul]
    apply Finset.sum_congr rfl
    intro j _
    rw [mul_pow, ← pow_mul (w⁻¹) i j, ← pow_mul (w⁻¹) j i, Nat.mul_comm i j]
    ring
  rw [evalCoefs_eq_sum, List.length_map, geometric_length, Finset.sum_congr rfl hterm,
    Finset.sum_comm]
  calc ∑ j ∈ Finset.range n, ∑ i ∈ Finset.range n, vs.getD j 0 * (w ^ m * (w⁻¹) ^ j) ^ i
      = ∑ j ∈ Finset.range n, if j = m then vs.getD j 0 * n else 0 := by
        apply Finset.sum_congr rfl
        intro j hj
        rw [← Finset.mul_sum, sum_pow_div_pow hw hm (Finset.mem_range.1 hj), mul_ite, mul_zero]
    _ = n * vs.getD m 0 := by
        rw [Finset.sum_ite_eq' _ m, if_pos (Finset.mem_range.2 hm), mul_comm]

/-! ### On the cosets of a domain -/

/-- A shift of the points goes into the coefficients. -/
theorem map_evalCoefs_shifted {as : List Scalar} {n : Nat} (h : as.length = n)
    (shift w : Scalar) :
    (geometric 1 w n).map (evalCoefs (List.zipWith (· * ·) as (geometric 1 shift n))) =
      (geometric shift w n).map (evalCoefs as) := by
  conv_rhs => rw [← mul_one shift, ← map_mul_geometric, List.map_map]
  apply List.map_congr_left
  intro x _
  rw [evalCoefs_zipWith_geometric h, one_mul, Function.comp_apply]

namespace Domain

variable (d : Domain) (coset : Nat) {as : List Scalar}

/-- The transform evaluates on the coset, up to the order of the entries. -/
theorem bitReverse_transform (h : as.length = d.size) :
    bitReverse (d.transform .frequency coset as) =
      (geometric (d.finerGenerator ^ coset) d.generator d.size).map (evalCoefs as) := by
  have hshifted : (List.zipWith (· * ·) as
      (geometric 1 (d.finerGenerator ^ coset) d.size)).length = d.size := by
    rw [List.length_zipWith, geometric_length, h, Nat.min_self]
  have hvalues := bitReversed_decimateInFrequency d.generator_primitive hshifted
  rw [transform, coefShifts, cosetShift_eq_pow, decimate, bitReverse_eq
    (decimateInFrequency_length _ hshifted), hvalues, ← size_eq, map_evalCoefs_shifted h]

/-- The coefficients that the inverse transform finds. -/
theorem bitReverse_inverseTransform (h : as.length = d.size) :
    bitReverse (d.inverseTransform .frequency coset as) =
      List.zipWith (· * ·) ((geometric 1 d.generator⁻¹ d.size).map (evalCoefs as))
        (geometric d.sizeInv ((d.finerGenerator⁻¹) ^ coset) d.size) := by
  have hvalues := bitReversed_decimateInFrequency d.generator_primitive.inv h
  have hlen : (decimateInFrequency d.log d.generator⁻¹ as).length = Nat.pow 2 d.log :=
    decimateInFrequency_length _ h
  have hshifts : (geometric d.sizeInv ((d.finerGenerator⁻¹) ^ coset) d.size).length =
      Nat.pow 2 d.log := geometric_length _ _ _
  have hreversed := bitReverse_eq hshifts
  rw [inverseTransform, decimate, finerGeneratorInv, generatorInv, power_eq_pow, hreversed,
    bitReverse_eq (k := d.log), bitReversed_zipWith _ _ hlen, hvalues,
    bitReversed_bitReversed hshifts, size_eq]
  · rw [hlen, bitReversed_length, hshifts]
  · rw [List.length_zipWith, hlen, bitReversed_length, hshifts, Nat.min_self]

theorem bitReverse_inverseTransform_length (h : as.length = d.size) :
    (bitReverse (d.inverseTransform .frequency coset as)).length = d.size := by
  rw [bitReverse_inverseTransform d coset h, List.length_zipWith, List.length_map,
    geometric_length, geometric_length, Nat.min_self]

/-- They are the coefficients of the given values. -/
theorem map_evalCoefs_bitReverse_inverseTransform (h : as.length = d.size) :
    (geometric (d.finerGenerator ^ coset) d.generator d.size).map
      (evalCoefs (bitReverse (d.inverseTransform .frequency coset as))) = as := by
  refine List.ext_getElem (by rw [List.length_map, geometric_length, h]) ?_
  intro m hm hm'
  have hmn : m < d.size := by rwa [h] at hm'
  have hu : d.finerGenerator ^ coset ≠ 0 := pow_ne_zero _ d.finerGenerator_ne_zero
  have hmg : m < (geometric (d.finerGenerator ^ coset) d.generator d.size).length :=
    hmn.trans_eq (geometric_length _ _ _).symm
  have hpoint : (geometric (d.finerGenerator ^ coset) d.generator d.size)[m] =
      d.finerGenerator ^ coset * d.generator ^ m := by
    rw [← List.getD_eq_getElem _ 0, getD_geometric _ _ hmn]
  rw [List.getElem_map, hpoint, bitReverse_inverseTransform d coset h,
    evalCoefs_zipWith_geometric (by rw [List.length_map, geometric_length]), inv_pow,
    inv_mul_cancel_left₀ hu, evalCoefs_map_geometric_inv d.generator_primitive h hmn, ← mul_assoc,
    sizeInv]
  show (Scalar.ofNat d.size)⁻¹ * Scalar.ofNat d.size * _ = _
  rw [inv_mul_cancel₀ d.size_cast_ne_zero, one_mul, List.getD_eq_getElem _ _ hm']

end Domain

end PlonkKzg
