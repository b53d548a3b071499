import PlonkKzg.Proofs.Domain.Transform

/-!
# Transforms by stages

A transform need not halve its data again and again. It can go through all data once for each size
of blocks, from the whole to the pairs or from the pairs to the whole, with butterflies between the
halves of each block. All stages then share one table of powers of the root, in which a stage with
smaller blocks takes longer strides.

* `mapBlocks` — an operation on each of the blocks of a list;
* `twiddles`, `strided` — the table, and the powers that a stage reads;
* `butterfliesInFrequency`, `butterfliesInTime` — the butterflies of one block;
* `stagesInFrequency`, `stagesInTime` — all stages, from the largest and from the smallest blocks;
* `distribute`, `distributeReversed` — the powers of a shift, for data in either order;
* `stagesInFrequency_eq_mapBlocks`, `stagesInTime_eq_mapBlocks` — the stages that stay within blocks
  transform each block;
* `runStages_eq_decimate` — all of them transform the data;
* `Domain.transform_eq_transformByStages`, `Domain.inverseTransform_eq_inverseByStages` — on the
  cosets of a domain;
* `Domain.fftByStages_eq_fft`, `Domain.fftInverseByStages_eq_fftInverse` — the same for data of any
  length.
-/

namespace PlonkKzg

/-- An operation on each of the first `count` blocks of `m` items. -/
def mapBlocks (f : List Scalar → List Scalar) (m : Nat) : Nat → List Scalar → List Scalar
  | 0, _ => []
  | count + 1, as => f (as.take m) ++ mapBlocks f m count (as.drop m)

/-- The powers of a root that the transforms of `n` items need. -/
def twiddles (w : Scalar) (n : Nat) : List Scalar := geometric 1 w (n / 2)

/-- The first `count` entries of a table at multiples of a stride. -/
def strided (table : List Scalar) (stride count : Nat) : List Scalar :=
  (List.range count).map fun j => table.getD (j * stride) 0

/-- Sums of the halves of a block, and their differences, twisted by entries of a table. -/
def butterfliesInFrequency (table : List Scalar) (stride half : Nat) (block : List Scalar) :
    List Scalar :=
  let low := block.take half
  let high := block.drop half
  List.zipWith (· + ·) low high ++
    List.zipWith (· * ·) (List.zipWith (· - ·) low high) (strided table stride half)

/-- Sums and differences of the lower half of a block and the upper one, which is twisted by entries
of a table. -/
def butterfliesInTime (table : List Scalar) (stride half : Nat) (block : List Scalar) :
    List Scalar :=
  let low := block.take half
  let twisted := List.zipWith (· * ·) (block.drop half) (strided table stride half)
  List.zipWith (· + ·) low twisted ++ List.zipWith (· - ·) low twisted

/-- The stages on blocks of `2 ^ j`, …, 4 and 2 items, of which the largest are `2 ^ c` in number. The
stride of a stage is the number of its blocks. -/
def stagesInFrequency (table : List Scalar) : Nat → Nat → List Scalar → List Scalar
  | _, 0, as => as
  | c, j + 1, as =>
      let block := butterfliesInFrequency table (Nat.pow 2 c) (Nat.pow 2 j)
      stagesInFrequency table (c + 1) j (mapBlocks block (Nat.pow 2 (j + 1)) (Nat.pow 2 c) as)

/-- The stages on blocks of 2, 4, … and `2 ^ j` items, of which the largest are `2 ^ c` in number. -/
def stagesInTime (table : List Scalar) : Nat → Nat → List Scalar → List Scalar
  | _, 0, as => as
  | c, j + 1, as =>
      let block := butterfliesInTime table (Nat.pow 2 c) (Nat.pow 2 j)
      mapBlocks block (Nat.pow 2 (j + 1)) (Nat.pow 2 c) (stagesInTime table (c + 1) j as)

/-- All stages of a transform of `2 ^ k` items. -/
def runStages (dec : Decimation) (table : List Scalar) (k : Nat) (as : List Scalar) :
    List Scalar :=
  match dec with
  | .frequency => stagesInFrequency table 0 k as
  | .time => stagesInTime table 0 k as

/-- Items multiplied by the powers of a factor. -/
def distribute (g : Scalar) (as : List Scalar) : List Scalar :=
  List.zipWith (· * ·) as (geometric 1 g as.length)

/-- Items in bit-reversed order multiplied by the powers of a factor. -/
def distributeReversed (g : Scalar) (as : List Scalar) : List Scalar :=
  List.zipWith (· * ·) as (bitReverse (geometric 1 g as.length))

namespace Domain

/-- The values of coefficients on a coset by stages. On coset 0 nothing is distributed. -/
def transformByStages (d : Domain) (dec : Decimation) (coset : Nat) (as : List Scalar) :
    List Scalar :=
  let shift := d.cosetShift coset
  let shifted := match dec with
    | .frequency => if coset = 0 then as else distribute shift as
    | .time => if coset = 0 then as else distributeReversed shift as
  runStages dec (twiddles d.generator d.size) d.log shifted

def inverseByStages (d : Domain) (dec : Decimation) (coset : Nat) (vs : List Scalar) :
    List Scalar :=
  let scaled := (runStages dec (twiddles d.generatorInv d.size) d.log vs).map (· * d.sizeInv)
  let shiftInv := power d.finerGeneratorInv coset
  match dec with
    | .frequency => if coset = 0 then scaled else distributeReversed shiftInv scaled
    | .time => if coset = 0 then scaled else distribute shiftInv scaled

def fftByStages (d : Domain) (dec : Decimation) (coset : Nat) (as : List Scalar) :
    Except Fault (List Scalar) :=
  if as.length = d.size then .ok (d.transformByStages dec coset as)
  else .error (.misuse .lengthMismatch)

def fftInverseByStages (d : Domain) (dec : Decimation) (coset : Nat) (vs : List Scalar) :
    Except Fault (List Scalar) :=
  if vs.length = d.size then .ok (d.inverseByStages dec coset vs)
  else .error (.misuse .lengthMismatch)

end Domain

/-! ### Blocks -/

section

variable {f g : List Scalar → List Scalar} {m count : Nat} {as : List Scalar}

theorem first_block_length (h : as.length = (count + 1) * m) :
    (as.take m).length = m ∧ (as.drop m).length = count * m := by
  rw [Nat.succ_mul] at h
  rw [List.length_take, List.length_drop]
  omega

theorem mapBlocks_length (hf : ∀ b, b.length = m → (f b).length = m)
    (h : as.length = count * m) : (mapBlocks f m count as).length = count * m := by
  induction count generalizing as with
  | zero => rw [mapBlocks, Nat.zero_mul, List.length_nil]
  | succ count ih =>
      obtain ⟨hblock, hrest⟩ := first_block_length h
      rw [mapBlocks, List.length_append, hf _ hblock, ih hrest, Nat.succ_mul, Nat.add_comm]

/-- Block functions that agree on blocks of the length in question give the same list. -/
theorem mapBlocks_congr (hfg : ∀ b, b.length = m → f b = g b) (h : as.length = count * m) :
    mapBlocks f m count as = mapBlocks g m count as := by
  induction count generalizing as with
  | zero => rfl
  | succ count ih =>
      obtain ⟨hblock, hrest⟩ := first_block_length h
      rw [mapBlocks, mapBlocks, hfg _ hblock, ih hrest]

/-- Two passes over the same blocks are one pass of the composition. -/
theorem mapBlocks_mapBlocks (hf : ∀ b, b.length = m → (f b).length = m)
    (h : as.length = count * m) :
    mapBlocks g m count (mapBlocks f m count as) = mapBlocks (fun b => g (f b)) m count as := by
  induction count generalizing as with
  | zero => rfl
  | succ count ih =>
      obtain ⟨hblock, hrest⟩ := first_block_length h
      have hnew := hf _ hblock
      rw [mapBlocks, mapBlocks, mapBlocks, List.take_left' hnew, List.drop_left' hnew, ih hrest]

theorem mapBlocks_id (h : as.length = count * m) : mapBlocks (fun b => b) m count as = as := by
  induction count generalizing as with
  | zero =>
      rw [Nat.zero_mul] at h
      rw [mapBlocks, List.eq_nil_of_length_eq_zero h]
  | succ count ih =>
      obtain ⟨-, hrest⟩ := first_block_length h
      rw [mapBlocks, ih hrest, List.take_append_drop]

theorem mapBlocks_one (h : as.length = m) : mapBlocks f m 1 as = f as := by
  rw [mapBlocks, mapBlocks, List.append_nil, ← h, List.take_length]

/-- Blocks taken in pairs. -/
theorem mapBlocks_double (f : List Scalar → List Scalar) (m count : Nat) (as : List Scalar) :
    mapBlocks f m (count * 2) as =
      mapBlocks (fun b => f (b.take m) ++ f (b.drop m)) (m * 2) count as := by
  induction count generalizing as with
  | zero => rfl
  | succ count ih =>
      have hlow : (as.take (m * 2)).take m = as.take m := by
        rw [List.take_take, Nat.min_eq_left (by omega)]
      have hhigh : (as.take (m * 2)).drop m = (as.drop m).take m := by
        rw [List.drop_take]
        congr 1
        omega
      have hrest : as.drop (m * 2) = (as.drop m).drop m := by
        rw [List.drop_drop]
        congr 1
        omega
      rw [Nat.succ_mul, mapBlocks, mapBlocks, mapBlocks, ih, hlow, hhigh, hrest,
        List.append_assoc]

end

/-! ### Butterflies -/

section

variable {w : Scalar} {stride half n : Nat} {table block : List Scalar}

/-- Strides through the powers of a root lead to the powers of a power of it. -/
theorem strided_geometric (w : Scalar) (hstride : 0 < stride) (h : half * stride ≤ n) :
    strided (geometric 1 w n) stride half = geometric 1 (w ^ stride) half := by
  rw [strided, geometric_eq_map 1 (w ^ stride)]
  refine List.map_congr_left fun j hj => ?_
  have hlt : j * stride < half * stride := Nat.mul_lt_mul_of_pos_right (List.mem_range.1 hj) hstride
  rw [getD_geometric 1 w (Nat.lt_of_lt_of_le hlt h), Nat.mul_comm j, pow_mul]

theorem strided_length : (strided table stride half).length = half := by
  rw [strided, List.length_map, List.length_range]

theorem butterfliesInFrequency_length (h : block.length = half * 2) :
    (butterfliesInFrequency table stride half block).length = half * 2 := by
  obtain ⟨hlow, hhigh⟩ := halves_length h
  simp only [butterfliesInFrequency, List.length_append, List.length_zipWith, hlow, hhigh,
    strided_length]
  omega

/-- To transform in frequency, butterflies come first and the halves after them. -/
theorem decimateInFrequency_butterflies {j : Nat} (h : block.length = Nat.pow 2 j * 2)
    (htable : strided table stride (Nat.pow 2 j) = geometric 1 w (Nat.pow 2 j)) :
    decimateInFrequency (j + 1) w block =
      decimateInFrequency j (w * w)
          ((butterfliesInFrequency table stride (Nat.pow 2 j) block).take (Nat.pow 2 j)) ++
        decimateInFrequency j (w * w)
          ((butterfliesInFrequency table stride (Nat.pow 2 j) block).drop (Nat.pow 2 j)) := by
  obtain ⟨hlow, hhigh⟩ := halves_length h
  have hsums : (List.zipWith (· + ·) (block.take (Nat.pow 2 j))
      (block.drop (Nat.pow 2 j))).length = Nat.pow 2 j := by
    rw [List.length_zipWith, hlow, hhigh, Nat.min_self]
  rw [butterfliesInFrequency, List.take_left' hsums, List.drop_left' hsums, htable,
    decimateInFrequency]

/-- To transform in time, the halves come first and butterflies after them. -/
theorem decimateInTime_butterflies {j : Nat} (h : block.length = Nat.pow 2 j * 2)
    (htable : strided table stride (Nat.pow 2 j) = geometric 1 w (Nat.pow 2 j)) :
    decimateInTime (j + 1) w block =
      butterfliesInTime table stride (Nat.pow 2 j)
        (decimateInTime j (w * w) (block.take (Nat.pow 2 j)) ++
          decimateInTime j (w * w) (block.drop (Nat.pow 2 j))) := by
  obtain ⟨hlow, -⟩ := halves_length h
  have heven := decimateInTime_length (w * w) hlow
  rw [butterfliesInTime, List.take_left' heven, List.drop_left' heven, htable, decimateInTime]

end

/-! ### Stages -/

section

variable {w : Scalar} {c j n : Nat} {as : List Scalar}

/-- The powers that a stage reads are those of the root of its blocks. -/
theorem strided_twiddles (w : Scalar) (h : Nat.pow 2 c * Nat.pow 2 (j + 1) = n) :
    strided (twiddles w n) (Nat.pow 2 c) (Nat.pow 2 j) =
      geometric 1 (w ^ Nat.pow 2 c) (Nat.pow 2 j) := by
  refine strided_geometric w (Nat.two_pow_pos c) (Nat.le_of_eq ?_)
  rw [← h, two_pow_succ, ← Nat.mul_assoc, Nat.mul_div_cancel _ Nat.two_pos, Nat.mul_comm]

/-- The root of the halves of a block is the square of the root of the block. -/
theorem pow_two_pow_succ (w : Scalar) (c : Nat) :
    w ^ Nat.pow 2 c * w ^ Nat.pow 2 c = w ^ Nat.pow 2 (c + 1) := by
  rw [two_pow_succ, pow_mul, sq]

/-- The remaining stages of the loop are the recursion on every block. -/
theorem stagesInFrequency_eq_mapBlocks (w : Scalar) (hn : Nat.pow 2 c * Nat.pow 2 j = n)
    (h : as.length = n) :
    stagesInFrequency (twiddles w n) c j as =
      mapBlocks (decimateInFrequency j (w ^ Nat.pow 2 c)) (Nat.pow 2 j) (Nat.pow 2 c) as := by
  induction j generalizing c as with
  | zero => exact (mapBlocks_id (h.trans hn.symm)).symm
  | succ j ih =>
      have hhalves : Nat.pow 2 (c + 1) * Nat.pow 2 j = n := by
        rw [← hn, two_pow_succ, two_pow_succ, Nat.mul_assoc, Nat.mul_comm 2]
      have hblock : ∀ b : List Scalar, b.length = Nat.pow 2 (j + 1) →
          (butterfliesInFrequency (twiddles w n) (Nat.pow 2 c) (Nat.pow 2 j) b).length =
            Nat.pow 2 (j + 1) := fun b hb => butterfliesInFrequency_length hb
      have hlen := h.trans hn.symm
      rw [stagesInFrequency, ih hhalves ((mapBlocks_length hblock hlen).trans hn), two_pow_succ c,
        mapBlocks_double, ← two_pow_succ j, mapBlocks_mapBlocks hblock hlen]
      refine mapBlocks_congr (fun b hb => ?_) hlen
      rw [← two_pow_succ c, ← pow_two_pow_succ,
        decimateInFrequency_butterflies hb (strided_twiddles w hn)]

/-- The same for decimation in time, whose halves come before their butterflies. -/
theorem stagesInTime_eq_mapBlocks (w : Scalar) (hn : Nat.pow 2 c * Nat.pow 2 j = n)
    (h : as.length = n) :
    stagesInTime (twiddles w n) c j as =
      mapBlocks (decimateInTime j (w ^ Nat.pow 2 c)) (Nat.pow 2 j) (Nat.pow 2 c) as := by
  induction j generalizing c as with
  | zero => exact (mapBlocks_id (h.trans hn.symm)).symm
  | succ j ih =>
      have hhalves : Nat.pow 2 (c + 1) * Nat.pow 2 j = n := by
        rw [← hn, two_pow_succ, two_pow_succ, Nat.mul_assoc, Nat.mul_comm 2]
      have hlen := h.trans hn.symm
      have hblock : ∀ b : List Scalar, b.length = Nat.pow 2 (j + 1) →
          (decimateInTime j (w ^ Nat.pow 2 (c + 1)) (b.take (Nat.pow 2 j)) ++
            decimateInTime j (w ^ Nat.pow 2 (c + 1)) (b.drop (Nat.pow 2 j))).length =
              Nat.pow 2 (j + 1) := by
        intro b hb
        obtain ⟨hlow, hhigh⟩ := halves_length hb
        rw [List.length_append, decimateInTime_length _ hlow, decimateInTime_length _ hhigh,
          two_pow_succ, Nat.mul_two]
      rw [stagesInTime, ih hhalves h, two_pow_succ c, mapBlocks_double, ← two_pow_succ j,
        ← two_pow_succ c, mapBlocks_mapBlocks hblock hlen]
      refine mapBlocks_congr (fun b hb => ?_) hlen
      rw [decimateInTime_butterflies hb (strided_twiddles w hn), pow_two_pow_succ]

/-- All stages together are the transform. -/
theorem runStages_eq_decimate (dec : Decimation) (w : Scalar) {k : Nat}
    (h : as.length = Nat.pow 2 k) :
    runStages dec (twiddles w (Nat.pow 2 k)) k as = decimate dec k w as := by
  have hn : Nat.pow 2 0 * Nat.pow 2 k = Nat.pow 2 k := Nat.one_mul _
  have hroot : w ^ Nat.pow 2 0 = w := pow_one w
  have hone : Nat.pow 2 0 = 1 := rfl
  cases dec with
  | frequency =>
      rw [runStages, stagesInFrequency_eq_mapBlocks w hn h, hroot, hone, mapBlocks_one h, decimate]
  | time =>
      rw [runStages, stagesInTime_eq_mapBlocks w hn h, hroot, hone, mapBlocks_one h, decimate]

end

/-! ### Cosets -/

section

variable {as : List Scalar} {k : Nat}

theorem distribute_one (as : List Scalar) : distribute 1 as = as := by
  induction as with
  | nil => rfl
  | cons a as ih =>
      rw [distribute] at ih
      rw [distribute, List.length_cons, geometric, List.zipWith_cons_cons, mul_one, mul_one, ih]

/-- Distributing powers in reversed order is distributing them between two reversals. -/
theorem distributeReversed_eq (g : Scalar) (h : as.length = Nat.pow 2 k) :
    distributeReversed g as = bitReverse (distribute g (bitReverse as)) := by
  have hpowers : (bitReverse as).length = (geometric 1 g as.length).length := by
    rw [bitReverse_length, geometric_length]
  have hlen : (bitReverse as).length = Nat.pow 2 k := by rw [bitReverse_length, h]
  rw [distribute, bitReverse_length, bitReverse_zipWith _ hpowers hlen, bitReverse_bitReverse h,
    distributeReversed]

theorem distributeReversed_one (h : as.length = Nat.pow 2 k) : distributeReversed 1 as = as := by
  rw [distributeReversed_eq 1 h, distribute_one, bitReverse_bitReverse h]

/-- To distribute nothing is to distribute the powers of one. -/
theorem distribute_power (g : Scalar) (coset : Nat) (as : List Scalar) :
    (if coset = 0 then as else distribute (power g coset) as) = distribute (power g coset) as := by
  split_ifs with hzero
  · rw [hzero, power_zero, distribute_one]
  · rfl

/-- For the first coset the factors are all one, so skipping the pass changes nothing. -/
theorem distributeReversed_power (g : Scalar) (coset : Nat) (h : as.length = Nat.pow 2 k) :
    (if coset = 0 then as else distributeReversed (power g coset) as) =
      distributeReversed (power g coset) as := by
  split_ifs with hzero
  · rw [hzero, power_zero, distributeReversed_one h]
  · rfl

/-- A progression that starts with a factor scales by it and distributes its powers. -/
theorem zipWith_geometric_start (start ratio : Scalar) (as : List Scalar) :
    List.zipWith (· * ·) as (geometric start ratio as.length) =
      distribute ratio (as.map (· * start)) := by
  have hpowers : geometric start ratio as.length =
      (geometric 1 ratio as.length).map (start * ·) := by
    rw [map_mul_geometric, mul_one]
  rw [distribute, List.length_map, hpowers, List.zipWith_map_left, List.zipWith_map_right]
  simp only [mul_assoc]

theorem bitReverse_map (f : Scalar → Scalar) (h : as.length = Nat.pow 2 k) :
    bitReverse (as.map f) = (bitReverse as).map f := by
  have hself : ∀ bs : List Scalar, bs.map f = List.zipWith (fun a _ => f a) bs bs := fun bs => by
    rw [List.zipWith_self]
  rw [hself, hself, bitReverse_zipWith _ rfl h]

theorem zipWith_bitReverse_geometric_start (start ratio : Scalar) (h : as.length = Nat.pow 2 k) :
    List.zipWith (· * ·) as (bitReverse (geometric start ratio as.length)) =
      distributeReversed ratio (as.map (· * start)) := by
  have hlen : (as.map (· * start)).length = Nat.pow 2 k := by rw [List.length_map, h]
  have hpowers : (bitReverse as).length = (geometric start ratio as.length).length := by
    rw [bitReverse_length, geometric_length]
  have hreversed : (bitReverse as).length = Nat.pow 2 k := by rw [bitReverse_length, h]
  have hboth := bitReverse_zipWith (· * ·) hpowers hreversed
  rw [bitReverse_bitReverse h] at hboth
  rw [distributeReversed_eq ratio hlen, bitReverse_map _ h, ← zipWith_geometric_start,
    bitReverse_length, hboth]

end

theorem decimate_length {k : Nat} (dec : Decimation) (w : Scalar) {as : List Scalar}
    (h : as.length = Nat.pow 2 k) : (decimate dec k w as).length = Nat.pow 2 k := by
  cases dec with
  | frequency => exact decimateInFrequency_length w h
  | time => exact decimateInTime_length w h

namespace Domain

variable (d : Domain) (coset : Nat) {as vs : List Scalar}

/-- The transform goes through its stages, after the powers of the shift are distributed. -/
theorem transform_eq_transformByStages (dec : Decimation) (h : as.length = d.size) :
    d.transform dec coset as = d.transformByStages dec coset as := by
  have hlen : as.length = Nat.pow 2 d.log := h
  have hshifted : (List.zipWith (· * ·) as (d.coefShifts dec (d.cosetShift coset))).length =
      Nat.pow 2 d.log := by
    cases dec <;> simp [coefShifts, hlen, size]
  rw [transform, ← runStages_eq_decimate dec d.generator hshifted]
  unfold transformByStages
  cases dec with
  | frequency =>
      simp only [cosetShift, distribute_power]
      rw [coefShifts, distribute, h]
      rfl
  | time =>
      simp only [cosetShift, distributeReversed_power _ _ hlen]
      rw [coefShifts, distributeReversed, h]
      rfl

/-- The inverse goes through the stages of the inverse root, before the shift is taken out. -/
theorem inverseTransform_eq_inverseByStages (dec : Decimation) (h : vs.length = d.size) :
    d.inverseTransform dec coset vs = d.inverseByStages dec coset vs := by
  have hlen : vs.length = Nat.pow 2 d.log := h
  have hvalues := decimate_length dec d.generatorInv hlen
  have hscaled : ((decimate dec d.log d.generatorInv vs).map (· * d.sizeInv)).length =
      Nat.pow 2 d.log := by rw [List.length_map, hvalues]
  unfold inverseByStages inverseTransform
  rw [size, runStages_eq_decimate dec d.generatorInv hlen]
  cases dec with
  | frequency =>
      simp only [distributeReversed_power _ _ hscaled]
      rw [← zipWith_bitReverse_geometric_start _ _ hvalues, hvalues]
  | time =>
      simp only [distribute_power]
      rw [← zipWith_geometric_start, hvalues]

/-- A transform by stages gives and refuses what the transform by halving does. -/
theorem fftByStages_eq_fft (dec : Decimation) (as : List Scalar) :
    d.fftByStages dec coset as = d.fft dec coset as := by
  unfold fftByStages fft
  split
  · rename_i h
    rw [d.transform_eq_transformByStages coset dec h]
  · rfl

/-- The inverse by stages is the recursive inverse, for every coset and list. -/
theorem fftInverseByStages_eq_fftInverse (dec : Decimation) (vs : List Scalar) :
    d.fftInverseByStages dec coset vs = d.fftInverse dec coset vs := by
  unfold fftInverseByStages fftInverse
  split
  · rename_i h
    rw [d.inverseTransform_eq_inverseByStages coset dec h]
  · rfl

end Domain

end PlonkKzg
