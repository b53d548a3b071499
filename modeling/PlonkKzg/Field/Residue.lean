import PlonkKzg.Bytes
import PlonkKzg.Field.Power

/-!
# Residues

Arithmetic modulo a fixed number. A residue is its canonical representative, the one below the
modulus, so equality of residues is equality of numbers and the order is that of the numbers.

* `Residue m` — a number below `m`; `Modulus m` says that there is one;
* `Residue.ofNat m n` — the residue of any number;
* `0`, `1`, `+`, `-`, `*`, `⁻¹` — the operations; `val_add`, `val_sub`, `val_neg` and `val_mul`
  give their representatives as one remainder each;
* `Residue.inverse?` — the inverse, refused for zero;
* `Residue.legendre` — whether a residue is zero, a square or neither (for an odd prime `m`);
* `Residue.toBytes`, `Residue.ofBytes?` — the encoding as little-endian bytes.

The inverse of `x` is `x` to the power `m - 2`, which is right when `m` is a prime, and which
makes the inverse of zero zero.
-/

namespace PlonkKzg

/-- A number that residues exist for. -/
class Modulus (m : Nat) : Prop where
  positive : 0 < m

theorem Modulus.pos (m : Nat) [Modulus m] : 0 < m := Modulus.positive

/-- A number below `m`. -/
@[ext] structure Residue (m : Nat) where
  val : Nat
  isLt : val < m

namespace Residue

variable {m : Nat}

instance : DecidableEq (Residue m) := fun a b =>
  if h : a.val = b.val then isTrue (Residue.ext h) else isFalse fun e => h (e ▸ rfl)

/-- The sum, less the modulus if it reaches it. -/
protected def add (a b : Residue m) : Residue m :=
  if h : a.val + b.val < m then ⟨a.val + b.val, h⟩
  else ⟨a.val + b.val - m, by have := a.isLt; have := b.isLt; omega⟩

instance : Add (Residue m) := ⟨Residue.add⟩

/-- The difference, with the modulus lent to it if it would be negative. -/
protected def sub (a b : Residue m) : Residue m :=
  if h : b.val ≤ a.val then ⟨a.val - b.val, by have := a.isLt; omega⟩
  else ⟨a.val + m - b.val, by have := a.isLt; have := b.isLt; omega⟩

instance : Sub (Residue m) := ⟨Residue.sub⟩

theorem val_add (a b : Residue m) : (a + b).val = (a.val + b.val) % m := by
  have ha := a.isLt
  have hb := b.isLt
  change (Residue.add a b).val = _
  unfold Residue.add
  split
  · rename_i h
    exact (Nat.mod_eq_of_lt h).symm
  · rename_i h
    rw [Nat.mod_eq_sub_mod (by omega), Nat.mod_eq_of_lt (by omega)]

theorem val_sub (a b : Residue m) : (a - b).val = (a.val + (m - b.val)) % m := by
  have ha := a.isLt
  have hb := b.isLt
  change (Residue.sub a b).val = _
  unfold Residue.sub
  split
  · rename_i h
    rw [Nat.mod_eq_sub_mod (by omega), Nat.mod_eq_of_lt (by omega)]
    change a.val - b.val = _
    omega
  · rename_i h
    rw [Nat.mod_eq_of_lt (by omega)]
    change a.val + m - b.val = _
    omega

variable [Modulus m]

def ofNat (m : Nat) [Modulus m] (n : Nat) : Residue m := ⟨n % m, Nat.mod_lt _ (Modulus.pos m)⟩

@[simp] theorem val_ofNat (n : Nat) : (ofNat m n).val = n % m := rfl

instance : Zero (Residue m) := ⟨ofNat m 0⟩

instance : One (Residue m) := ⟨ofNat m 1⟩

instance : Inhabited (Residue m) := ⟨0⟩

instance : Neg (Residue m) := ⟨fun a => 0 - a⟩

protected def mul (a b : Residue m) : Residue m := ofNat m (a.val * b.val)

instance : Mul (Residue m) := ⟨Residue.mul⟩

/-- The power to `m - 2`. -/
protected def inv (a : Residue m) : Residue m := power a (m - 2)

instance : Inv (Residue m) := ⟨Residue.inv⟩

@[simp] theorem val_zero : (0 : Residue m).val = 0 := Nat.zero_mod m

theorem val_one : (1 : Residue m).val = 1 % m := rfl

theorem val_neg (a : Residue m) : (-a).val = (m - a.val) % m := by
  change (0 - a).val = _
  rw [val_sub, val_zero, Nat.zero_add]

theorem val_mul (a b : Residue m) : (a * b).val = a.val * b.val % m := rfl

def square (a : Residue m) : Residue m := a * a

def inverse? (a : Residue m) : Option (Residue m) :=
  if a = 0 then none else some a⁻¹

/-- What a residue is among the squares. -/
inductive Legendre where
  | zero
  | square
  | nonsquare
deriving DecidableEq, Repr

/-- Euler's criterion: the power to half of `m - 1` is one exactly for the squares. -/
def legendre (a : Residue m) : Legendre :=
  if a = 0 then .zero
  else if power a ((m - 1) / 2) = 1 then .square
  else .nonsquare

/-- The representative in `k` bytes, least significant first. -/
def toBytes (k : Nat) (a : Residue m) : List UInt8 := littleEndian k a.val

omit [Modulus m] in
@[simp] theorem toBytes_length (k : Nat) (a : Residue m) : (a.toBytes k).length = k :=
  littleEndian_length k a.val

/-- The residue whose representative the bytes write, if they write one at all. -/
def ofBytes? (m : Nat) (bs : List UInt8) : Option (Residue m) :=
  if h : ofLittleEndian bs < m then some ⟨ofLittleEndian bs, h⟩ else none

omit [Modulus m] in
theorem ofBytes?_eq_some_iff {bs : List UInt8} {a : Residue m} :
    ofBytes? m bs = some a ↔ ofLittleEndian bs = a.val := by
  unfold ofBytes?
  split
  · simp [Residue.ext_iff]
  · rename_i h
    simp only [reduceCtorEq, false_iff]
    intro e
    exact h (e ▸ a.isLt)

omit [Modulus m] in
theorem ofBytes?_toBytes {k : Nat} (hk : m ≤ Nat.pow 256 k) (a : Residue m) :
    ofBytes? m (a.toBytes k) = some a := by
  rw [ofBytes?_eq_some_iff, toBytes, ofLittleEndian_littleEndian, Nat.mod_eq_of_lt]
  exact Nat.lt_of_lt_of_le a.isLt hk

end Residue

end PlonkKzg
