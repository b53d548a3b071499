import PlonkKzg.Domain.PowerOfTwo

/-!
# Bit reversal

The permutation of `2 ^ k` places that reads the number of a place backwards in base two.

* `reverseBits k i` — the `k` low bits of `i` in the opposite order;
* `bitReversed k xs` — the items at even places in this order, then those at odd places;
* `bitReverse xs` — the same for a list whose length is a power of two; any other list stays as it
  is.
-/

namespace PlonkKzg

/-- The `k` low bits of a number in the opposite order. -/
def reverseBits : Nat → Nat → Nat
  | 0, _ => 0
  | k + 1, i => i % 2 * Nat.pow 2 k + reverseBits k (i / 2)

theorem reverseBits_lt (k i : Nat) : reverseBits k i < Nat.pow 2 k := by
  induction k generalizing i with
  | zero => simp [reverseBits]
  | succ k ih =>
      have h := ih (i / 2)
      have hb : i % 2 = 0 ∨ i % 2 = 1 := by omega
      simp only [reverseBits, two_pow_succ]
      rcases hb with hb | hb <;> rw [hb] <;> omega

variable {α : Type}

def evens : List α → List α
  | [] => []
  | [a] => [a]
  | a :: _ :: as => a :: evens as

def odds : List α → List α
  | [] => []
  | [_] => []
  | _ :: b :: as => b :: odds as

theorem evens_length_add_odds_length (as : List α) :
    (evens as).length + (odds as).length = as.length := by
  fun_induction evens as with
  | case1 => rfl
  | case2 => rfl
  | case3 a b as ih => simp only [odds, List.length_cons]; omega

/-- The items in bit-reversed order, for `2 ^ k` items. -/
def bitReversed : Nat → List α → List α
  | 0, as => as
  | k + 1, as => bitReversed k (evens as) ++ bitReversed k (odds as)

@[simp] theorem bitReversed_length (k : Nat) (as : List α) :
    (bitReversed k as).length = as.length := by
  induction k generalizing as with
  | zero => rfl
  | succ k ih =>
      simp only [bitReversed, List.length_append, ih, evens_length_add_odds_length]

/-- The items in bit-reversed order if their number is a power of two. -/
def bitReverse (as : List α) : List α :=
  match exactLog2? as.length with
  | some k => bitReversed k as
  | none => as

@[simp] theorem bitReverse_length (as : List α) : (bitReverse as).length = as.length := by
  unfold bitReverse
  split
  · exact bitReversed_length _ _
  · rfl

example : bitReverse [0, 1, 2, 3, 4, 5, 6, 7] = [0, 4, 2, 6, 1, 5, 3, 7] := by decide
example : bitReverse [0, 1, 2] = [0, 1, 2] := by decide

end PlonkKzg
