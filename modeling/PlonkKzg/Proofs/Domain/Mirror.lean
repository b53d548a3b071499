import Mathlib.Data.Nat.Bitwise
import PlonkKzg.Proofs.Domain.BitReversal
import PlonkKzg.Proofs.Domain.Exchange

/-!
# Bit reversal in place

Bit reversal pairs each place with the one whose number reads the same backwards. So the list can be
reversed where it stands, by exchanging the pairs, and the place of the partner is found by turning
around a whole machine word and shifting it down.

* `testBit_reverseBits`, `toNat_reverse` — the bits of a reversed number: `k` bits read backwards;
* `mirrored`, `toNat_mirrored` — the same from all bits of a word;
* `pairsPlaces_mirroredPlace` — the places of `2 ^ k` items in pairs;
* `bitReverseInPlace?`, `bitReverseInPlace?_eq` — the exchange of all pairs is the bit reversal;
* `bitReverse_perm`, `getElem?_bitReverse`, `bitReverse_of_ne` — the items stay the same, each at the
  place that reads backwards, or all where they were;
* `bitReverse_mirrors` — all of it.
-/

namespace PlonkKzg

/-! ### Numbers read backwards -/

/-- Bit `b` of the mirrored number is bit `k - 1 - b` of the number. -/
theorem testBit_reverseBits (k i b : Nat) :
    (reverseBits k i).testBit b = (decide (b < k) && i.testBit (k - 1 - b)) := by
  induction k generalizing i b with
  | zero => simp [reverseBits]
  | succ k ih =>
      rw [reverseBits, Nat.mul_comm, Nat.pow_eq,
        Nat.testBit_two_pow_mul_add _ (reverseBits_lt k (i / 2)), ih]
      by_cases hb : b < k
      · have hplace : k - 1 - b + 1 = k + 1 - 1 - b := by omega
        rw [if_pos hb, Nat.testBit_div_two, hplace]
        simp [hb, Nat.lt_succ_of_lt hb]
      · -- The highest bit of the reversed number is the lowest of `i`, and there is none above.
        have hlow := Nat.testBit_mod_two_pow i 1 (b - k)
        rw [pow_one] at hlow
        rw [if_neg hb, hlow]
        by_cases htop : b = k
        · simp [htop]
        · have habove : ¬b - k < 1 ∧ ¬b < k + 1 := by omega
          simp [habove]

/-- To reverse a number is to reverse its `k` binary digits. -/
theorem toNat_reverse {k : Nat} (i : BitVec k) : i.reverse.toNat = reverseBits k i.toNat := by
  apply Nat.eq_of_testBit_eq
  intro b
  rw [BitVec.testBit_toNat, BitVec.getLsbD_reverse, BitVec.getMsbD_eq_getLsbD,
    testBit_reverseBits, BitVec.testBit_toNat]

/-- Mirroring twice gives the number back. -/
theorem reverseBits_reverseBits {k i : Nat} (hi : i < 2 ^ k) :
    reverseBits k (reverseBits k i) = i := by
  have htwice := congrArg BitVec.toNat (BitVec.reverse_reverse_eq (x := BitVec.ofNatLT i hi))
  rwa [toNat_reverse, toNat_reverse, BitVec.toNat_ofNatLT] at htwice

/-! ### Words -/

/-- The `k` low bits of a word in the opposite order: the word backwards, without the bits that come
from above. A shift by the whole width would be none, so no bits are a case of their own. -/
def mirrored (k : Nat) (i : UInt64) : UInt64 :=
  if k = 0 then 0 else UInt64.ofBitVec i.toBitVec.reverse >>> UInt64.ofNat (64 - k)

/-- The mirror on machine words is the mirror on numbers. -/
theorem toNat_mirrored {k : Nat} (hk : k ≤ 64) (i : UInt64) :
    (mirrored k i).toNat = reverseBits k i.toNat := by
  by_cases hzero : k = 0
  · rw [mirrored, if_pos hzero, hzero]
    rfl
  · have hshift : (UInt64.ofNat (64 - k)).toNat % 64 = 64 - k := by
      rw [UInt64.toNat_ofNat_of_lt' (by rw [UInt64.size]; omega)]
      omega
    have hword : (UInt64.ofBitVec i.toBitVec.reverse).toNat = reverseBits 64 i.toNat :=
      toNat_reverse i.toBitVec
    apply Nat.eq_of_testBit_eq
    intro b
    have hlow : 64 - k + b < 64 ↔ b < k := by omega
    have hplace : 64 - 1 - (64 - k + b) = k - 1 - b := by omega
    rw [mirrored, if_neg hzero, UInt64.toNat_shiftRight, hshift, hword, Nat.testBit_shiftRight,
      testBit_reverseBits, testBit_reverseBits, hplace]
    simp only [hlow]

/-- The place that reads backwards in `k` bits. -/
def mirroredPlace (k p : Nat) : Nat := (mirrored k (UInt64.ofNat p)).toNat

variable {k p : Nat}

theorem mirroredPlace_eq (hk : k ≤ 64) (hp : p < 2 ^ k) : mirroredPlace k p = reverseBits k p := by
  have hword : p < UInt64.size := lt_of_lt_of_le hp (Nat.pow_le_pow_right (by decide) hk)
  rw [mirroredPlace, toNat_mirrored hk, UInt64.toNat_ofNat_of_lt' hword]

/-- Mirroring pairs the places up, as the exchange loop needs. -/
theorem pairsPlaces_mirroredPlace (hk : k ≤ 64) : PairsPlaces (mirroredPlace k) (2 ^ k) where
  lt p hp := by
    rw [mirroredPlace_eq hk hp]
    exact reverseBits_lt k p
  involutive p hp := by
    have hback : reverseBits k p < 2 ^ k := reverseBits_lt k p
    rw [mirroredPlace_eq hk hp, mirroredPlace_eq hk hback, reverseBits_reverseBits hp]

variable {α : Type} {as : List α}

/-! ### The reversed list -/

theorem evens_append_odds_perm (as : List α) : (evens as ++ odds as).Perm as := by
  fun_induction evens as with
  | case1 => exact .refl _
  | case2 a => exact .refl _
  | case3 a b as ih => exact (List.perm_middle.trans (ih.cons b)).cons a

/-- Bit reversal loses and invents nothing. -/
theorem bitReversed_perm (k : Nat) (as : List α) : (bitReversed k as).Perm as := by
  induction k generalizing as with
  | zero => exact .refl _
  | succ k ih => exact ((ih (evens as)).append (ih (odds as))).trans (evens_append_odds_perm as)

theorem bitReverse_perm (as : List α) : (bitReverse as).Perm as := by
  unfold bitReverse
  split
  · exact bitReversed_perm _ as
  · exact .refl as

/-- Entry `p` comes from the mirrored place. -/
theorem getElem?_bitReverse (h : as.length = 2 ^ k) (hp : p < 2 ^ k) :
    (bitReverse as)[p]? = as[reverseBits k p]? := by
  have hplace := getElem?_bitReversed h (reverseBits_lt k p)
  rwa [reverseBits_reverseBits hp, ← bitReverse_eq h] at hplace

/-- A list whose length is no power of two is returned as it is. -/
theorem bitReverse_of_ne (h : ∀ k, as.length ≠ 2 ^ k) : bitReverse as = as := by
  have hlog : exactLog2? as.length = none := by
    rw [Option.eq_none_iff_forall_ne_some]
    intro k hk
    exact h k (exactLog2?_eq_some_iff.1 hk)
  rw [bitReverse, hlog]

/-! ### The list in place -/

/-- Exchanges all pairs of places that read the same backwards, if the number of places is a power of
two. A single place needs no exchange. -/
def bitReverseInPlace? (as : List α) : Option (List α) :=
  match exactLog2? as.length with
  | some (k + 1) => exchangeFirst? (mirroredPlace (k + 1)) as.length as
  | _ => some as

/-- The loop that exchanges each place with its mirror computes the bit reversal. -/
theorem exchangeFirst?_mirroredPlace (hk : k ≤ 64) (h : as.length = 2 ^ k) :
    exchangeFirst? (mirroredPlace k) as.length as = some (bitReverse as) := by
  obtain ⟨bs, hbs, hlen, hget⟩ := exchangeFirst?_length (h ▸ pairsPlaces_mirroredPlace hk)
  rw [hbs]
  congr 1
  apply List.ext_getElem?
  intro p
  by_cases hp : p < as.length
  · have hpow : p < 2 ^ k := h ▸ hp
    rw [hget p hp, mirroredPlace_eq hk hpow, getElem?_bitReverse h hpow]
  · have hge : as.length ≤ p := Nat.not_lt.1 hp
    rw [List.getElem?_eq_none (hlen.trans_le hge),
      List.getElem?_eq_none ((bitReverse_length as).trans_le hge)]

/-- No exchange is out of bounds, and all of them together are the bit reversal. -/
theorem bitReverseInPlace?_eq (h : as.length < UInt64.size) :
    bitReverseInPlace? as = some (bitReverse as) := by
  cases hlog : exactLog2? as.length with
  | none => rw [bitReverseInPlace?, bitReverse, hlog]
  | some k =>
      have hlen : as.length = 2 ^ k := exactLog2?_eq_some_iff.1 hlog
      cases k with
      | zero =>
          rw [bitReverseInPlace?, bitReverse, hlog]
          rfl
      | succ k =>
          have hk : k + 1 < 64 := (Nat.pow_lt_pow_iff_right Nat.one_lt_two).1 (hlen ▸ h)
          rw [bitReverseInPlace?, hlog]
          exact exchangeFirst?_mirroredPlace hk.le hlen

/-- For `2 ^ k` items, the item at the place of each `k`-digit binary number is the one that was at
the place of the number with its digits reversed; so a second reversal brings all items back, and
none is lost. Any other list stays as it is. Exchanging pairs of places in the list itself, as long
as a word can number them, gives the same. -/
theorem bitReverse_mirrors (as : List α) :
    (∀ k, as.length = 2 ^ k →
      (∀ i : BitVec k, (bitReverse as)[i.toNat]? = as[i.reverse.toNat]?) ∧
      bitReverse (bitReverse as) = as ∧
      (bitReverse as).Perm as) ∧
    ((∀ k, as.length ≠ 2 ^ k) → bitReverse as = as) ∧
    (as.length < UInt64.size → bitReverseInPlace? as = some (bitReverse as)) := by
  refine ⟨fun k h => ⟨fun i => ?_, bitReverse_bitReverse h, bitReverse_perm as⟩, bitReverse_of_ne,
    bitReverseInPlace?_eq⟩
  rw [toNat_reverse, getElem?_bitReverse h i.isLt]

/-- Eight items, with two pairs of places and four places that read the same backwards, and three
items, which stay where they are. -/
theorem bitReverse_mirrors_eight :
    ([0, 1, 2, 3, 4, 5, 6, 7].length = 2 ^ 3 ∧
      (∀ i : BitVec 3, (bitReverse [0, 1, 2, 3, 4, 5, 6, 7])[i.toNat]? =
        [0, 1, 2, 3, 4, 5, 6, 7][i.reverse.toNat]?) ∧
      bitReverse (bitReverse [0, 1, 2, 3, 4, 5, 6, 7]) = [0, 1, 2, 3, 4, 5, 6, 7] ∧
      (bitReverse [0, 1, 2, 3, 4, 5, 6, 7]).Perm [0, 1, 2, 3, 4, 5, 6, 7]) ∧
    ((∀ k, [0, 1, 2].length ≠ 2 ^ k) ∧ bitReverse [0, 1, 2] = [0, 1, 2]) ∧
    ([0, 1, 2, 3, 4, 5, 6, 7].length < UInt64.size ∧
      bitReverseInPlace? [0, 1, 2, 3, 4, 5, 6, 7] = some [0, 4, 2, 6, 1, 5, 3, 7]) := by
  have hthree : ∀ k, [0, 1, 2].length ≠ 2 ^ k := by
    intro k h
    cases k with
    | zero => cases h
    | succ k =>
        rw [pow_succ, List.length_cons, List.length_cons, List.length_singleton] at h
        omega
  have hwords : [0, 1, 2, 3, 4, 5, 6, 7].length < UInt64.size := by decide
  obtain ⟨hpowers, -, hplace⟩ := bitReverse_mirrors [0, 1, 2, 3, 4, 5, 6, 7]
  obtain ⟨-, hothers, -⟩ := bitReverse_mirrors [0, 1, 2]
  exact ⟨⟨rfl, hpowers 3 rfl⟩, ⟨hthree, hothers hthree⟩, hwords, hplace hwords⟩

end PlonkKzg
