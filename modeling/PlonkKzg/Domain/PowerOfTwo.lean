/-!
# Powers of two

* `exactLog2? n` — the exponent of a power of two, and nothing for any other number;
* `exactLog2?_eq_some_iff` — which says just that.
-/

namespace PlonkKzg

theorem two_pow_succ (k : Nat) : Nat.pow 2 (k + 1) = Nat.pow 2 k * 2 := rfl

def exactLog2? (n : Nat) : Option Nat := if Nat.pow 2 n.log2 = n then some n.log2 else none

theorem exactLog2?_eq_some_iff {n k : Nat} : exactLog2? n = some k ↔ n = Nat.pow 2 k := by
  unfold exactLog2?
  constructor
  · intro h
    split at h
    · rename_i hn
      injection h with hk
      rw [← hk, hn]
    · exact absurd h (by simp)
  · rintro rfl
    simp only [Nat.pow_eq, Nat.log2_two_pow, if_true]

theorem exactLog2?_two_pow (k : Nat) : exactLog2? (Nat.pow 2 k) = some k :=
  exactLog2?_eq_some_iff.2 rfl

example : exactLog2? 0 = none := by decide

end PlonkKzg
