import PlonkKzg.Domain.BitReversal

/-!
# Laws of bit reversal

Bit reversal sorts by the lowest bit first, and the result is read by the highest bit first. So it
turns two halves into every other place, and doing it twice changes nothing.

* `weave` — two lists of one length, one item of each in turn;
* `bitReversed_append` — two halves are reversed one by one and then woven;
* `bitReversed_bitReversed` — twice is once round;
* `bitReversed_zipWith` — two lists may be combined before or after;
* `getElem?_bitReversed` — each item moves to the place with the reversed number.
-/

namespace PlonkKzg

variable {α β γ : Type}

/-- Two lists of one length, one item of each in turn. -/
def weave : List α → List α → List α
  | a :: as, b :: bs => a :: b :: weave as bs
  | _, _ => []

theorem weave_append {as bs : List α} (cs ds : List α) (h : as.length = bs.length) :
    weave (as ++ cs) (bs ++ ds) = weave as bs ++ weave cs ds := by
  induction as generalizing bs with
  | nil =>
      obtain rfl : bs = [] := List.length_eq_zero_iff.1 h.symm
      rfl
  | cons a as ih =>
      cases bs with
      | nil => simp at h
      | cons b bs => simp only [List.cons_append, weave, ih (Nat.succ.inj h)]

theorem map_weave (f : α → β) (as bs : List α) :
    (weave as bs).map f = weave (as.map f) (bs.map f) := by
  fun_induction weave as bs with
  | case1 a as b bs ih => simp only [List.map_cons, weave, ih]
  | case2 as bs h =>
      cases as with
      | nil => rfl
      | cons a as =>
          cases bs with
          | nil => rfl
          | cons b bs => exact absurd rfl (h a as b bs rfl)

/-- Weaving undoes the split into even and odd places. -/
theorem weave_evens_odds {as : List α} (h : as.length % 2 = 0) :
    weave (evens as) (odds as) = as := by
  fun_induction evens as with
  | case1 => rfl
  | case2 a => simp at h
  | case3 a b as ih =>
      simp only [List.length_cons] at h
      rw [odds, weave, ih (by omega)]

theorem evens_append {as : List α} (bs : List α) (h : as.length % 2 = 0) :
    evens (as ++ bs) = evens as ++ evens bs := by
  fun_induction evens as with
  | case1 => rfl
  | case2 a => simp at h
  | case3 a b as ih =>
      simp only [List.length_cons] at h
      simp only [List.cons_append, evens, ih (by omega)]

theorem odds_append {as : List α} (bs : List α) (h : as.length % 2 = 0) :
    odds (as ++ bs) = odds as ++ odds bs := by
  fun_induction odds as with
  | case1 => rfl
  | case2 a => simp at h
  | case3 a b as ih =>
      simp only [List.length_cons] at h
      simp only [List.cons_append, odds, ih (by omega)]

theorem evens_zipWith (f : α → β → γ) {as : List α} {bs : List β} (h : as.length = bs.length) :
    evens (List.zipWith f as bs) = List.zipWith f (evens as) (evens bs) := by
  fun_induction evens as generalizing bs with
  | case1 => simp [evens]
  | case2 a =>
      obtain ⟨b, rfl⟩ := List.length_eq_one_iff.1 h.symm
      rfl
  | case3 a a' as ih =>
      rcases bs with _ | ⟨b, _ | ⟨b', bs⟩⟩
      · simp at h
      · simp at h
      · simp only [List.zipWith_cons_cons, evens, ih (by simpa using h)]

theorem odds_zipWith (f : α → β → γ) {as : List α} {bs : List β} (h : as.length = bs.length) :
    odds (List.zipWith f as bs) = List.zipWith f (odds as) (odds bs) := by
  fun_induction odds as generalizing bs with
  | case1 => simp [odds]
  | case2 a =>
      obtain ⟨b, rfl⟩ := List.length_eq_one_iff.1 h.symm
      rfl
  | case3 a a' as ih =>
      rcases bs with _ | ⟨b, _ | ⟨b', bs⟩⟩
      · simp at h
      · simp at h
      · simp only [List.zipWith_cons_cons, odds, ih (by simpa using h)]

theorem evens_odds_length {as : List α} {n : Nat} (h : as.length = n * 2) :
    (evens as).length = n ∧ (odds as).length = n := by
  fun_induction evens as generalizing n with
  | case1 =>
      rw [List.length_nil] at h
      exact ⟨by rw [List.length_nil]; omega, by rw [odds, List.length_nil]; omega⟩
  | case2 a =>
      simp only [List.length_cons, List.length_nil] at h
      omega
  | case3 a b as ih =>
      simp only [List.length_cons] at h
      obtain ⟨he, ho⟩ := ih (n := n - 1) (by omega)
      simp only [odds, List.length_cons, he, ho]
      omega

/-! ### Reversal of two halves -/

/-- The first recursion goes down by the low bit, this equation by the high one. -/
theorem bitReversed_append {k : Nat} {as bs : List α} (ha : as.length = Nat.pow 2 k)
    (hb : bs.length = Nat.pow 2 k) :
    bitReversed (k + 1) (as ++ bs) = weave (bitReversed k as) (bitReversed k bs) := by
  induction k generalizing as bs with
  | zero =>
      obtain ⟨a, rfl⟩ := List.length_eq_one_iff.1 ha
      obtain ⟨b, rfl⟩ := List.length_eq_one_iff.1 hb
      rfl
  | succ k ih =>
      rw [two_pow_succ] at ha hb
      obtain ⟨hae, hao⟩ := evens_odds_length ha
      obtain ⟨hbe, hbo⟩ := evens_odds_length hb
      have heven : as.length % 2 = 0 := by omega
      calc bitReversed (k + 2) (as ++ bs)
          = bitReversed (k + 1) (evens as ++ evens bs) ++
              bitReversed (k + 1) (odds as ++ odds bs) := by
            rw [bitReversed, evens_append bs heven, odds_append bs heven]
        _ = weave (bitReversed k (evens as)) (bitReversed k (evens bs)) ++
              weave (bitReversed k (odds as)) (bitReversed k (odds bs)) := by
            rw [ih hae hbe, ih hao hbo]
        _ = weave (bitReversed (k + 1) as) (bitReversed (k + 1) bs) := by
            rw [bitReversed, bitReversed, weave_append]
            rw [bitReversed_length, bitReversed_length, hae, hbe]

/-- The recursive bit reversal is its own inverse. -/
theorem bitReversed_bitReversed {k : Nat} {as : List α} (h : as.length = Nat.pow 2 k) :
    bitReversed k (bitReversed k as) = as := by
  induction k generalizing as with
  | zero => rfl
  | succ k ih =>
      rw [two_pow_succ] at h
      obtain ⟨he, ho⟩ := evens_odds_length h
      have hre : (bitReversed k (evens as)).length = Nat.pow 2 k := by rw [bitReversed_length, he]
      have hro : (bitReversed k (odds as)).length = Nat.pow 2 k := by rw [bitReversed_length, ho]
      show bitReversed (k + 1) (bitReversed k (evens as) ++ bitReversed k (odds as)) = as
      rw [bitReversed_append hre hro, ih he, ih ho]
      exact weave_evens_odds (by omega)

/-- Bit reversal moves entries without looking at them. -/
theorem bitReversed_zipWith (f : α → β → γ) {k : Nat} {as : List α} {bs : List β}
    (h : as.length = bs.length) (hk : as.length = Nat.pow 2 k) :
    bitReversed k (List.zipWith f as bs) =
      List.zipWith f (bitReversed k as) (bitReversed k bs) := by
  induction k generalizing as bs with
  | zero => rfl
  | succ k ih =>
      rw [two_pow_succ] at hk
      obtain ⟨hae, hao⟩ := evens_odds_length hk
      obtain ⟨hbe, hbo⟩ := evens_odds_length (h ▸ hk)
      rw [bitReversed, bitReversed, bitReversed, evens_zipWith f h, odds_zipWith f h,
        ih (hae.trans hbe.symm) hae, ih (hao.trans hbo.symm) hao, List.zipWith_append]
      rw [bitReversed_length, bitReversed_length, hae, hbe]

/-- On a list whose length is a power of two the depth is found and the reversal carried out. -/
theorem bitReverse_eq {k : Nat} {as : List α} (h : as.length = Nat.pow 2 k) :
    bitReverse as = bitReversed k as := by
  rw [bitReverse, h, exactLog2?_two_pow]

theorem bitReverse_bitReverse {k : Nat} {as : List α} (h : as.length = Nat.pow 2 k) :
    bitReverse (bitReverse as) = as := by
  have hlen : (bitReversed k as).length = Nat.pow 2 k := by rw [bitReversed_length, h]
  rw [bitReverse_eq h, bitReverse_eq hlen, bitReversed_bitReversed h]

theorem bitReverse_zipWith (f : α → β → γ) {k : Nat} {as : List α} {bs : List β}
    (h : as.length = bs.length) (hk : as.length = Nat.pow 2 k) :
    bitReverse (List.zipWith f as bs) = List.zipWith f (bitReverse as) (bitReverse bs) := by
  have hlen : (List.zipWith f as bs).length = Nat.pow 2 k := by
    rw [List.length_zipWith, ← h, Nat.min_self, hk]
  rw [bitReverse_eq hlen, bitReverse_eq hk, bitReverse_eq (h ▸ hk), bitReversed_zipWith f h hk]

/-! ### Places -/

theorem getElem?_evens (as : List α) (i : Nat) : (evens as)[i]? = as[2 * i]? := by
  fun_induction evens as generalizing i with
  | case1 => rfl
  | case2 a => cases i with
    | zero => rfl
    | succ i => simp [Nat.mul_succ]
  | case3 a b as ih => cases i with
    | zero => rfl
    | succ i => simp only [List.getElem?_cons_succ, ih, Nat.mul_succ]

theorem getElem?_odds (as : List α) (i : Nat) : (odds as)[i]? = as[2 * i + 1]? := by
  fun_induction odds as generalizing i with
  | case1 => rfl
  | case2 a => simp
  | case3 a b as ih => cases i with
    | zero => rfl
    | succ i => simp only [List.getElem?_cons_succ, ih, Nat.mul_succ]

/-- The place of an item after the reversal has the number of its place before, read backwards. -/
theorem getElem?_bitReversed {k : Nat} {as : List α} (h : as.length = Nat.pow 2 k) {i : Nat}
    (hi : i < Nat.pow 2 k) : (bitReversed k as)[reverseBits k i]? = as[i]? := by
  induction k generalizing as i with
  | zero =>
      obtain rfl : i = 0 := Nat.lt_one_iff.1 hi
      rfl
  | succ k ih =>
      rw [two_pow_succ] at h hi
      obtain ⟨he, ho⟩ := evens_odds_length h
      have hleft : (bitReversed k (evens as)).length = Nat.pow 2 k := by rw [bitReversed_length, he]
      have hhalf : i / 2 < Nat.pow 2 k := by omega
      rw [bitReversed, reverseBits]
      -- An even place goes to the first half, an odd one to the second half.
      rcases Nat.mod_two_eq_zero_or_one i with hbit | hbit
      · rw [hbit, Nat.zero_mul, Nat.zero_add,
          List.getElem?_append_left (hleft ▸ reverseBits_lt k (i / 2)), ih he hhalf, getElem?_evens,
          show 2 * (i / 2) = i by omega]
      · rw [hbit, Nat.one_mul, List.getElem?_append_right (hleft ▸ Nat.le_add_right _ _), hleft,
          Nat.add_sub_cancel_left, ih ho hhalf, getElem?_odds, show 2 * (i / 2) + 1 = i by omega]

end PlonkKzg
