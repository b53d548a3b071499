/-!
# Powers and multiples by doubling

One recursion on the binary digits of the exponent, for everything in the library that has to be
multiplied by itself many times.

* `powerBits x k n` — the product of as many `x` as the `k` low bits of `n` say;
* `power x n` — all bits of `n`.

The exponents reach some thousand bits, so the number of multiplications has to grow with the
number of bits and not with the exponent.
-/

namespace PlonkKzg

variable {α : Type}

/-- The power of `x` to the number that the `k` low bits of `n` write. -/
def powerBits [One α] [Mul α] (x : α) : Nat → Nat → α
  | 0, _ => 1
  | k + 1, n =>
      let rest := powerBits (x * x) k (n / 2)
      if n % 2 = 1 then x * rest else rest

def power [One α] [Mul α] (x : α) (n : Nat) : α :=
  powerBits x (n.log2 + 1) n

theorem powerBits_zero_exponent [One α] [Mul α] (x : α) (k : Nat) : powerBits x k 0 = 1 := by
  induction k generalizing x with
  | zero => rfl
  | succ k ih => simp [powerBits, ih]

theorem power_zero [One α] [Mul α] (x : α) : power x 0 = 1 :=
  powerBits_zero_exponent x _

end PlonkKzg
