/-!
# Little-endian bytes

Numbers as lists of bytes, least significant byte first — the order of every number that the
library writes or reads.

* `littleEndian k n` — the `k` low bytes of `n`;
* `ofLittleEndian bs` — the number that bytes of any length stand for;
* `ofLittleEndian_littleEndian` — reading what was written gives the number modulo `256 ^ k`;
* `littleEndian_ofLittleEndian` — writing what was read gives the bytes;
* `splitBytes?` — a field of fixed width at the head of a byte list.
-/

namespace PlonkKzg

/-- The `k` low bytes of a number, least significant first. -/
def littleEndian : Nat → Nat → List UInt8
  | 0, _ => []
  | k + 1, n => UInt8.ofNat (n % 256) :: littleEndian k (n / 256)

/-- The number that a list of bytes stands for, least significant byte first. -/
def ofLittleEndian : List UInt8 → Nat
  | [] => 0
  | b :: bs => b.toNat + 256 * ofLittleEndian bs

@[simp] theorem littleEndian_length (k n : Nat) : (littleEndian k n).length = k := by
  induction k generalizing n with
  | zero => rfl
  | succ k ih => simp only [littleEndian, List.length_cons, ih]

theorem ofLittleEndian_littleEndian (k n : Nat) :
    ofLittleEndian (littleEndian k n) = n % Nat.pow 256 k := by
  induction k generalizing n with
  | zero => simp only [littleEndian, ofLittleEndian, Nat.pow_eq, Nat.pow_zero, Nat.mod_one]
  | succ k ih =>
      have hb : (UInt8.ofNat (n % 256)).toNat = n % 256 := by
        simp only [UInt8.toNat_ofNat']
        omega
      simp only [Nat.pow_eq] at ih ⊢
      rw [littleEndian, ofLittleEndian, ih, hb, Nat.pow_succ, Nat.mul_comm (256 ^ k) 256,
        Nat.mod_mul]

theorem littleEndian_ofLittleEndian (bs : List UInt8) :
    littleEndian bs.length (ofLittleEndian bs) = bs := by
  induction bs with
  | nil => rfl
  | cons b bs ih =>
      have hb : b.toNat < 256 := b.toNat_lt
      have hlow : (b.toNat + 256 * ofLittleEndian bs) % 256 = b.toNat := by omega
      have hhigh : (b.toNat + 256 * ofLittleEndian bs) / 256 = ofLittleEndian bs := by omega
      rw [List.length_cons, ofLittleEndian, littleEndian, hlow, hhigh, ih, UInt8.ofNat_toNat]

/-- The first `k` bytes and the rest, unless there are fewer. -/
def splitBytes? (k : Nat) (bs : List UInt8) : Option (List UInt8 × List UInt8) :=
  if k ≤ bs.length then some (bs.take k, bs.drop k) else none

theorem splitBytes?_append (front rest : List UInt8) :
    splitBytes? front.length (front ++ rest) = some (front, rest) := by
  simp [splitBytes?]

example : littleEndian 4 258 = [2, 1, 0, 0] := by decide

end PlonkKzg
