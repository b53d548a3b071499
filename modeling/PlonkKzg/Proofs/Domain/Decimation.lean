import PlonkKzg.Proofs.Domain.Stages

/-!
# Both decimations

Decimation in time computes the same values as decimation in frequency. It takes the coefficients in
bit-reversed order and leaves the values in natural order, so each of the four transforms is one of
two maps between coefficients and values in natural order, with a reversal before or after it.

* `Poly.evalCoefs_eq_evens_odds` — the value of a list by its even and its odd places;
* `zipWith_add_evens_odds`, `zipWith_sub_evens_odds` — the two outputs of a butterfly;
* `decimateInTime_bitReversed` — decimation in time evaluates at the powers of the root;
* `Domain.values`, `Domain.coefficients` — from coefficients to values on a coset and back, with
  both in natural order;
* `Domain.fft_frequency`, `Domain.fft_time`, `Domain.fftInverse_frequency`,
  `Domain.fftInverse_time` — the transforms by these two;
* `Domain.fft_evaluates` — each place of the data after a transform.
-/

namespace PlonkKzg

open PlonkKzg.Poly

/-! ### Decimation in time -/

/-- The even places belong to the even powers, the odd ones to the odd powers. -/
theorem Poly.evalCoefs_eq_evens_odds (as : List Scalar) (x : Scalar) :
    evalCoefs as x = evalCoefs (evens as) (x ^ 2) + evalCoefs (odds as) (x ^ 2) * x := by
  fun_induction evens as with
  | case1 => simp [odds, evalCoefs]
  | case2 a => simp [odds, evalCoefs]
  | case3 a b as ih =>
      rw [odds, evalCoefs_cons, evalCoefs_cons, evalCoefs_cons, evalCoefs_cons, ih]
      ring

/-- The sums of a butterfly are the values at the points of the halves. -/
theorem zipWith_add_evens_odds (as xs : List Scalar) :
    List.zipWith (· + ·) (xs.map fun x => evalCoefs (evens as) (x ^ 2))
      (xs.map fun x => evalCoefs (odds as) (x ^ 2) * x) = xs.map (evalCoefs as) := by
  rw [List.zipWith_map, List.zipWith_self]
  exact List.map_congr_left fun x _ => (evalCoefs_eq_evens_odds as x).symm

/-- Its differences are the values at these points with the other sign. -/
theorem zipWith_sub_evens_odds (as xs : List Scalar) :
    List.zipWith (· - ·) (xs.map fun x => evalCoefs (evens as) (x ^ 2))
      (xs.map fun x => evalCoefs (odds as) (x ^ 2) * x) = xs.map fun x => evalCoefs as (-1 * x) := by
  rw [List.zipWith_map, List.zipWith_self]
  apply List.map_congr_left
  intro x _
  rw [evalCoefs_eq_evens_odds as, neg_one_mul, neg_sq, mul_neg, sub_eq_add_neg]

/-- Decimation in time, fed in reversed order, evaluates at the powers of the root. -/
theorem decimateInTime_bitReversed {k : Nat} {w : Scalar} (hw : IsPrimitiveRoot w (2 ^ k))
    {as : List Scalar} (h : as.length = Nat.pow 2 k) :
    decimateInTime k w (bitReversed k as) = (geometric 1 w (2 ^ k)).map (evalCoefs as) := by
  induction k generalizing w as with
  | zero =>
      obtain ⟨a, rfl⟩ := List.length_eq_one_iff.1 h
      simp [bitReversed, decimateInTime, geometric, evalCoefs]
  | succ k ih =>
      rw [two_pow_succ] at h
      obtain ⟨he, ho⟩ := evens_odds_length h
      have hleft : (bitReversed k (evens as)).length = Nat.pow 2 k := by rw [bitReversed_length, he]
      have hsquare : IsPrimitiveRoot (w * w) (2 ^ k) := primitive_mul_self hw
      -- The halves are evaluated at the squares of the first powers of `w`.
      have hsquares : ∀ f : Scalar → Scalar, (geometric 1 (w * w) (2 ^ k)).map f =
          (geometric 1 w (2 ^ k)).map fun x => f (x ^ 2) := by
        intro f
        have hmap : geometric 1 (w * w) (2 ^ k) = (geometric 1 w (2 ^ k)).map (· ^ 2) := by
          rw [map_pow_geometric, one_pow, pow_two]
        rw [hmap, List.map_map]
        rfl
      have htwisted : List.zipWith (· * ·)
          ((geometric 1 w (2 ^ k)).map fun x => evalCoefs (odds as) (x ^ 2))
          (geometric 1 w (Nat.pow 2 k)) =
          (geometric 1 w (2 ^ k)).map fun x => evalCoefs (odds as) (x ^ 2) * x := by
        rw [List.zipWith_map_left]
        exact List.zipWith_self
      -- The later powers of `w` are the first ones with the other sign.
      have hlater : geometric (1 * w ^ 2 ^ k) w (2 ^ k) =
          (geometric 1 w (2 ^ k)).map (-1 * ·) := by
        rw [pow_half_eq_neg_one hw, mul_comm 1, map_mul_geometric]
      rw [bitReversed, decimateInTime, ← hleft, List.take_left, List.drop_left, hleft,
        ih hsquare he, ih hsquare ho, hsquares, hsquares, htwisted, zipWith_add_evens_odds,
        zipWith_sub_evens_odds, pow_succ, Nat.mul_two, ← geometric_append, hlater,
        List.map_append, List.map_map]
      rfl

/-! ### Values and coefficients in natural order -/

namespace Domain

variable (d : Domain) (coset : Nat) {as : List Scalar}

def values (as : List Scalar) : List Scalar :=
  (geometric (d.finerGenerator ^ coset) d.generator d.size).map (evalCoefs as)

/-- The coefficients of values on a coset: the values at the powers of the inverse root, divided by
the size and by the powers of the shift. -/
def coefficients (vs : List Scalar) : List Scalar :=
  List.zipWith (· * ·) ((geometric 1 d.generator⁻¹ d.size).map (evalCoefs vs))
    (geometric d.sizeInv ((d.finerGenerator⁻¹) ^ coset) d.size)

@[simp] theorem values_length (as : List Scalar) : (d.values coset as).length = d.size := by
  rw [values, List.length_map, geometric_length]

@[simp] theorem coefficients_length (vs : List Scalar) :
    (d.coefficients coset vs).length = d.size := by
  rw [coefficients, List.length_zipWith, List.length_map, geometric_length, geometric_length,
    Nat.min_self]

/-- Decimation in frequency gives the values in reversed order. -/
theorem transform_frequency (h : as.length = d.size) :
    d.transform .frequency coset as = bitReverse (d.values coset as) := by
  have hshifted : (List.zipWith (· * ·) as
      (geometric 1 (d.cosetShift coset) d.size)).length = Nat.pow 2 d.log := by
    rw [List.length_zipWith, geometric_length, h, Nat.min_self, size]
  have hlen : (d.transform .frequency coset as).length = Nat.pow 2 d.log :=
    decimateInFrequency_length _ hshifted
  rw [values, ← d.bitReverse_transform coset h, bitReverse_bitReverse hlen]

theorem inverseTransform_frequency (h : as.length = d.size) :
    d.inverseTransform .frequency coset as = bitReverse (d.coefficients coset as) := by
  have hlen : (d.inverseTransform .frequency coset as).length = Nat.pow 2 d.log := by
    rw [← bitReverse_length, bitReverse_inverseTransform_length d coset h, size]
  rw [coefficients, ← d.bitReverse_inverseTransform coset h, bitReverse_bitReverse hlen]

/-- Decimation in time undoes the reversal of its data before it evaluates them. -/
theorem decimateInTime_eq {k : Nat} {w : Scalar} (hw : IsPrimitiveRoot w (2 ^ k))
    (h : as.length = Nat.pow 2 k) :
    decimateInTime k w as = (geometric 1 w (2 ^ k)).map (evalCoefs (bitReverse as)) := by
  have hlen : (bitReverse as).length = Nat.pow 2 k := by rw [bitReverse_length, h]
  rw [← decimateInTime_bitReversed hw hlen, ← bitReverse_eq hlen, bitReverse_bitReverse h]

/-- Decimation in time expects its input in reversed order. -/
theorem transform_time (h : as.length = d.size) :
    d.transform .time coset as = d.values coset (bitReverse as) := by
  have hpowers : (geometric 1 (d.finerGenerator ^ coset) d.size).length = Nat.pow 2 d.log :=
    geometric_length _ _ _
  have hboth : as.length =
      (bitReverse (geometric 1 (d.finerGenerator ^ coset) d.size)).length := by
    rw [bitReverse_length, hpowers, h, size]
  have hshifted : (List.zipWith (· * ·) as
      (bitReverse (geometric 1 (d.finerGenerator ^ coset) d.size))).length = Nat.pow 2 d.log := by
    rw [List.length_zipWith, ← hboth, h, Nat.min_self, size]
  -- The shifts are reversed like the data, so that each meets its own coefficient.
  rw [transform, coefShifts, cosetShift_eq_pow, decimate, decimateInTime_eq d.generator_primitive
    hshifted, bitReverse_zipWith _ hboth h, bitReverse_bitReverse hpowers, ← size_eq,
    map_evalCoefs_shifted (by rw [bitReverse_length, h]), values]

theorem inverseTransform_time (h : as.length = d.size) :
    d.inverseTransform .time coset as = d.coefficients coset (bitReverse as) := by
  rw [inverseTransform, decimate, generatorInv, finerGeneratorInv, power_eq_pow,
    decimateInTime_eq d.generator_primitive.inv h, coefficients, size_eq]

/-! ### The four transforms -/

/-- The checked transform in frequency succeeds at the domain's size, with the values reversed. -/
theorem fft_frequency (h : as.length = d.size) :
    d.fft .frequency coset as = .ok (bitReverse (d.values coset as)) := by
  rw [fft, if_pos h, d.transform_frequency coset h]

theorem fft_time (h : as.length = d.size) :
    d.fft .time coset as = .ok (d.values coset (bitReverse as)) := by
  rw [fft, if_pos h, d.transform_time coset h]

theorem fftInverse_frequency (h : as.length = d.size) :
    d.fftInverse .frequency coset as = .ok (bitReverse (d.coefficients coset as)) := by
  rw [fftInverse, if_pos h, d.inverseTransform_frequency coset h]

theorem fftInverse_time (h : as.length = d.size) :
    d.fftInverse .time coset as = .ok (d.coefficients coset (bitReverse as)) := by
  rw [fftInverse, if_pos h, d.inverseTransform_time coset h]

/-- Entry `i` of the values is the sum that evaluates the coefficients at point `i` of the coset. -/
theorem getElem?_values {i : Nat} (hi : i < d.size) : (d.values coset as)[i]? =
    some (∑ j ∈ Finset.range as.length,
      as.getD j 0 * (d.generator ^ i * d.finerGenerator ^ coset) ^ j) := by
  rw [values, geometric_eq_map, List.map_map, List.getElem?_map, List.getElem?_range hi,
    Option.map_some, Function.comp_apply, evalCoefs_eq_sum, mul_comm (d.finerGenerator ^ coset)]

variable {d}

/-- Both decimations evaluate coefficients at the points of a coset. In frequency, the value that
belongs to a power of the generator goes to the place with the reversed number; in time, where the
coefficients come in reversed, it goes to the place with that number. The transforms by stages give
the same. -/
theorem fft_evaluates {n depth : Nat} (hd : ofSize n depth = .ok d) (coset : Nat)
    {as : List Scalar} (has : as.length = n) :
    ∃ reversed natural : List Scalar,
      (d.fft .frequency coset as = .ok reversed ∧
        d.fftByStages .frequency coset as = .ok reversed ∧ reversed.length = n) ∧
      (d.fft .time coset (bitReverse as) = .ok natural ∧
        d.fftByStages .time coset (bitReverse as) = .ok natural ∧ natural.length = n) ∧
      ∀ i < n,
        reversed[reverseBits n.log2 i]? = some (∑ j ∈ Finset.range n,
          as.getD j 0 * (d.generator ^ i * d.finerGenerator ^ coset) ^ j) ∧
        natural[i]? = some (∑ j ∈ Finset.range n,
          as.getD j 0 * (d.generator ^ i * d.finerGenerator ^ coset) ^ j) := by
  obtain ⟨hsize, -⟩ := ofSize_eq_ok hd
  have hlen : as.length = d.size := has.trans hsize.symm
  have hreversed : (bitReverse as).length = d.size := by rw [bitReverse_length, hlen]
  have hlog : n.log2 = d.log := by rw [← hsize, size_eq, Nat.log2_two_pow]
  have hvalues : (d.values coset as).length = Nat.pow 2 d.log := d.values_length coset as
  have hnatural := d.fft_time coset hreversed
  rw [bitReverse_bitReverse hlen] at hnatural
  have hfrequency := d.fft_frequency coset hlen
  refine ⟨_, _, ⟨hfrequency, ?_, ?_⟩, ⟨hnatural, ?_, ?_⟩, ?_⟩
  · rw [fftByStages_eq_fft, hfrequency]
  · rw [bitReverse_length, values_length, hsize]
  · rw [fftByStages_eq_fft, hnatural]
  · rw [values_length, hsize]
  · intro i hi
    have hin : i < d.size := hi.trans_eq hsize.symm
    have hvalue := @getElem?_values d coset as i hin
    rw [has] at hvalue
    refine ⟨?_, hvalue⟩
    rw [hlog, bitReverse_eq hvalues, getElem?_bitReversed hvalues hin, hvalue]

/-- Four coefficients on the third coset: the values for the second and the third power change
places. -/
theorem fft_evaluates_four : ∃ (d : Domain) (reversed natural : List Scalar),
    ofSize 4 1 = .ok d ∧
    (d.fft .frequency 3 [1, 0, 1 + 1, 1] = .ok reversed ∧
      d.fftByStages .frequency 3 [1, 0, 1 + 1, 1] = .ok reversed ∧ reversed.length = 4) ∧
    (d.fft .time 3 (bitReverse [1, 0, 1 + 1, 1]) = .ok natural ∧
      d.fftByStages .time 3 (bitReverse [1, 0, 1 + 1, 1]) = .ok natural ∧ natural.length = 4) ∧
    ∀ i < 4,
      reversed[reverseBits (Nat.log2 4) i]? = some (∑ j ∈ Finset.range 4,
        [1, 0, 1 + 1, 1].getD j 0 * (d.generator ^ i * d.finerGenerator ^ 3) ^ j) ∧
      natural[i]? = some (∑ j ∈ Finset.range 4,
        [1, 0, 1 + 1, 1].getD j 0 * (d.generator ^ i * d.finerGenerator ^ 3) ^ j) := by
  have hd : ofSize 4 1 = .ok ⟨2, 1, by decide⟩ := rfl
  have has : ([1, 0, 1 + 1, 1] : List Scalar).length = 4 := rfl
  obtain ⟨reversed, natural, h⟩ := fft_evaluates hd 3 has
  exact ⟨_, reversed, natural, hd, h⟩

end Domain

end PlonkKzg
