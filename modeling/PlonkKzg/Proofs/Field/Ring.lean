import Mathlib.Algebra.Field.Defs
import Mathlib.Data.ZMod.Basic
import PlonkKzg.Field.Scalar

/-!
# Residues as a ring

The operations on residues satisfy the laws of a commutative ring, since a residue and its class
modulo `m` determine each other.

* `Residue.toZMod` — the class of a residue, an injective map that keeps all operations;
* `Residue.commRing` — the ring of residues;
* `power_eq_pow` — powers by doubling are powers;
* `Residue.toZMod_pow_eq_one_iff` — a power of a class is one if that of the residue is, which can
  be evaluated;
* `Residue.card_eq` — there are as many residues as the modulus says.
-/

namespace PlonkKzg

/-! ### Powers by doubling -/

section

variable {α : Type} [Monoid α]

/-- Square and multiply over `k` bits raises to the exponent they spell. -/
theorem powerBits_eq_pow (x : α) (k n : Nat) : powerBits x k n = x ^ (n % 2 ^ k) := by
  induction k generalizing x n with
  | zero => simp [powerBits, Nat.mod_one]
  | succ k ih =>
      have hsplit : n % 2 ^ (k + 1) = n % 2 + 2 * (n / 2 % 2 ^ k) := by
        rw [pow_succ, Nat.mul_comm (2 ^ k) 2, Nat.mod_mul]
      rw [powerBits, ih, ← pow_two, ← pow_mul, hsplit]
      rcases Nat.mod_two_eq_zero_or_one n with h | h
      · rw [h, if_neg (by omega), Nat.zero_add]
      · rw [h, if_pos rfl, pow_add, pow_one]

/-- The program's power is the power of the monoid. -/
theorem power_eq_pow (x : α) (n : Nat) : power x n = x ^ n := by
  have hlt : n < 2 ^ (n.log2 + 1) := Nat.lt_log2_self
  rw [power, powerBits_eq_pow, Nat.mod_eq_of_lt hlt]

end

namespace Residue

variable {m : Nat}

/-- Residues are the numbers below the modulus. -/
def equivFin (m : Nat) : Residue m ≃ Fin m where
  toFun a := ⟨a.val, a.isLt⟩
  invFun k := ⟨k.val, k.isLt⟩

instance fintype : Fintype (Residue m) := Fintype.ofEquiv (Fin m) (equivFin m).symm

theorem card_eq : Fintype.card (Residue m) = m := by
  rw [Fintype.ofEquiv_card, Fintype.card_fin]

/-! ### The class of a residue -/

/-- The class modulo `m`. -/
def toZMod (a : Residue m) : ZMod m := (a.val : ZMod m)

/-- Residues embed in the integers modulo `m`, so their laws can be taken from there. -/
theorem toZMod_injective : Function.Injective (toZMod (m := m)) := by
  intro a b h
  have hmod : a.val % m = b.val % m := (ZMod.natCast_eq_natCast_iff' _ _ _).1 h
  rw [Nat.mod_eq_of_lt a.isLt, Nat.mod_eq_of_lt b.isLt] at hmod
  exact Residue.ext hmod

@[simp] theorem toZMod_add (a b : Residue m) : (a + b).toZMod = a.toZMod + b.toZMod := by
  simp [toZMod, val_add]

theorem cast_sub_val (a : Residue m) : ((m - a.val : Nat) : ZMod m) = -a.toZMod := by
  rw [Nat.cast_sub (Nat.le_of_lt a.isLt), ZMod.natCast_self, zero_sub, toZMod]

@[simp] theorem toZMod_sub (a b : Residue m) : (a - b).toZMod = a.toZMod - b.toZMod := by
  rw [toZMod, val_sub, ZMod.natCast_mod, Nat.cast_add, cast_sub_val, ← sub_eq_add_neg, ← toZMod]

variable [Modulus m]

@[simp] theorem toZMod_ofNat (n : Nat) : (ofNat m n).toZMod = (n : ZMod m) := by
  simp [toZMod]

@[simp] theorem toZMod_zero : (0 : Residue m).toZMod = 0 := by
  simp [toZMod]

@[simp] theorem toZMod_one : (1 : Residue m).toZMod = 1 := by
  rw [toZMod, val_one, ZMod.natCast_mod, Nat.cast_one]

@[simp] theorem toZMod_neg (a : Residue m) : (-a).toZMod = -a.toZMod := by
  rw [toZMod, val_neg, ZMod.natCast_mod, cast_sub_val]

@[simp] theorem toZMod_mul (a b : Residue m) : (a * b).toZMod = a.toZMod * b.toZMod := by
  rw [toZMod, val_mul, ZMod.natCast_mod, Nat.cast_mul, ← toZMod, ← toZMod]

/-! ### The ring -/

/-- Each law holds because it holds for the classes. -/
instance commRing : CommRing (Residue m) where
  add_assoc a b c := toZMod_injective (by simp only [toZMod_add, add_assoc])
  zero_add a := toZMod_injective (by simp only [toZMod_add, toZMod_zero, zero_add])
  add_zero a := toZMod_injective (by simp only [toZMod_add, toZMod_zero, add_zero])
  add_comm a b := toZMod_injective (by simp only [toZMod_add, add_comm])
  mul_assoc a b c := toZMod_injective (by simp only [toZMod_mul, mul_assoc])
  one_mul a := toZMod_injective (by simp only [toZMod_mul, toZMod_one, one_mul])
  mul_one a := toZMod_injective (by simp only [toZMod_mul, toZMod_one, mul_one])
  mul_comm a b := toZMod_injective (by simp only [toZMod_mul, mul_comm])
  left_distrib a b c := toZMod_injective (by simp only [toZMod_add, toZMod_mul, mul_add])
  right_distrib a b c := toZMod_injective (by simp only [toZMod_add, toZMod_mul, add_mul])
  zero_mul a := toZMod_injective (by simp only [toZMod_mul, toZMod_zero, zero_mul])
  mul_zero a := toZMod_injective (by simp only [toZMod_mul, toZMod_zero, mul_zero])
  neg_add_cancel a :=
    toZMod_injective (by simp only [toZMod_add, toZMod_neg, toZMod_zero, neg_add_cancel])
  sub_eq_add_neg a b :=
    toZMod_injective (by simp only [toZMod_add, toZMod_sub, toZMod_neg, sub_eq_add_neg])
  nsmul := nsmulRec
  zsmul := zsmulRec
  natCast := ofNat m
  natCast_zero := rfl
  natCast_succ n := toZMod_injective (by
    simp only [toZMod_add, toZMod_ofNat, toZMod_one, Nat.cast_add, Nat.cast_one])

theorem natCast_eq_ofNat (n : Nat) : (n : Residue m) = ofNat m n := rfl

@[simp] theorem toZMod_pow (a : Residue m) (n : Nat) : (a ^ n).toZMod = a.toZMod ^ n := by
  induction n with
  | zero => rw [pow_zero, pow_zero, toZMod_one]
  | succ n ih => rw [pow_succ, pow_succ, toZMod_mul, ih]

theorem natCast_self : (m : Residue m) = 0 :=
  toZMod_injective (by rw [natCast_eq_ofNat, toZMod_ofNat, ZMod.natCast_self, toZMod_zero])

/-- A power being one can be decided by running square and multiply. -/
theorem toZMod_pow_eq_one_iff (a n : Nat) :
    ((a : ZMod m) ^ n = 1) ↔ power (ofNat m a) n = 1 := by
  rw [power_eq_pow, ← toZMod_injective.eq_iff, toZMod_pow, toZMod_ofNat, toZMod_one]

end Residue

end PlonkKzg
