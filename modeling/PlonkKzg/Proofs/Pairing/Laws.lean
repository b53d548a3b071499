import Mathlib.Algebra.Module.Basic
import Mathlib.SetTheory.Cardinal.Finite
import PlonkKzg.Pairing.Groups
import PlonkKzg.Proofs.Field.Primality

/-!
# The laws of groups with a pairing

The groups are modules over the scalars. What else the theory of commitments asks of them is stated
here, each law by itself, so that a theorem names those that it needs.

* `Scalar.moduleOfOrder` — a group without other orders than that of the scalars is a module;
* `Pairing.Bilinear` — a pairing keeps sums and multiples in both arguments;
* `Pairing.Nondegenerate` — only zero has zero as its pairing with everything;
* `PrimeOrder` — a group has as many elements as there are scalars, and a base point that is not
  zero; `PrimeOrder.exists_smul_generator` — so that the base point generates it;
* `Pairing.pair_generator_eq_zero_iff` — the pairing with the base point tells zero from all else;
* `Pairing.nondegenerate_of_generator` — one pairing that is not zero is enough.

The scalars themselves are such groups: an element stands for that multiple of a base point, and the
pairing multiplies.
-/

namespace PlonkKzg

/-! ### Modules over the scalars -/

namespace Scalar

section

variable {G : Type} [AddCommGroup G] (horder : ∀ P : G, order • P = 0)
include horder

/-- In a group killed by the order, multiples depend on the factor modulo the order. -/
theorem mod_order_nsmul (n : Nat) (P : G) : (n % order) • P = n • P := by
  have hmultiple : (order * (n / order)) • P = 0 := by rw [mul_nsmul', horder]
  conv_rhs => rw [← Nat.div_add_mod n order, add_nsmul, hmultiple, zero_add]

end

/-- A group in which the order of the scalars kills every element, acted on by the numbers of the
scalars. -/
abbrev moduleOfOrder {G : Type} [AddCommGroup G] [SMul Scalar G]
    (hsmul : ∀ (k : Scalar) (P : G), k • P = k.val • P) (horder : ∀ P : G, order • P = 0) :
    Module Scalar G where
  one_smul P := by rw [hsmul, Residue.val_one, mod_order_nsmul horder, one_nsmul]
  mul_smul j k P := by
    rw [hsmul, hsmul, hsmul, Residue.val_mul, mod_order_nsmul horder, mul_nsmul']
  smul_zero k := by rw [hsmul, nsmul_zero]
  smul_add k P Q := by simp only [hsmul, nsmul_add]
  add_smul j k P := by
    rw [hsmul, hsmul, hsmul, Residue.val_add, mod_order_nsmul horder, add_nsmul]
  zero_smul P := by rw [hsmul, Residue.val_zero, zero_nsmul]

end Scalar

/-! ### Groups of prime order -/

/-- A group of prime order with a base point. -/
class PrimeOrder (G : Type) [AddCommGroup G] [Generator G] : Prop where
  card_eq : Nat.card G = Scalar.order
  generator_ne_zero : (Generator.generator : G) ≠ 0

/-- Every element is a multiple of the base point. -/
theorem PrimeOrder.exists_smul_generator {G : Type} [AddCommGroup G] [Module Scalar G] [Generator G]
    [PrimeOrder G] (Q : G) : ∃ k : Scalar, k • (Generator.generator : G) = Q := by
  have hcard : Nat.card G = Scalar.order := card_eq
  have : Finite G := Nat.finite_of_card_ne_zero (hcard ▸ Scalar.order_prime.ne_zero)
  have hinjective : Function.Injective fun k : Scalar => k • (Generator.generator : G) :=
    smul_left_injective Scalar generator_ne_zero
  have hle : Nat.card G ≤ Nat.card Scalar := by
    rw [hcard, Nat.card_eq_fintype_card, Residue.card_eq]
  exact (hinjective.bijective_of_nat_card_le hle).2 Q

namespace Pairing

section

variable (G₁ G₂ Gₜ : Type) [AddCommGroup G₁] [Module Scalar G₁] [AddCommGroup G₂] [Module Scalar G₂]
  [AddCommGroup Gₜ] [Module Scalar Gₜ] [Pairing G₁ G₂ Gₜ]

/-- The pairing keeps sums and multiples in both arguments. -/
class Bilinear : Prop where
  pair_add_left : ∀ (P P' : G₁) (Q : G₂), (pair (P + P') Q : Gₜ) = pair P Q + pair P' Q
  pair_add_right : ∀ (P : G₁) (Q Q' : G₂), (pair P (Q + Q') : Gₜ) = pair P Q + pair P Q'
  pair_smul_left : ∀ (k : Scalar) (P : G₁) (Q : G₂), (pair (k • P) Q : Gₜ) = k • pair P Q
  pair_smul_right : ∀ (k : Scalar) (P : G₁) (Q : G₂), (pair P (k • Q) : Gₜ) = k • pair P Q

/-- Only zero has zero as its pairing with everything. -/
class Nondegenerate : Prop where
  eq_zero_of_pair_eq_zero : ∀ P : G₁, (∀ Q : G₂, (pair P Q : Gₜ) = 0) → P = 0

end

variable {G₁ G₂ Gₜ : Type} [AddCommGroup G₁] [Module Scalar G₁] [AddCommGroup G₂] [Module Scalar G₂]
  [AddCommGroup Gₜ] [Module Scalar Gₜ] [Pairing G₁ G₂ Gₜ]

open Bilinear

/-- A secret can be moved to the first argument, where the difference of two pairings is one. -/
theorem pair_add_pair_neg_smul [Bilinear G₁ G₂ Gₜ] (s : Scalar) (P W : G₁) (Q : G₂) :
    (pair P Q + pair (-W) (s • Q) : Gₜ) = pair (P - s • W) Q := by
  have hneg : s • -W = -(s • W) := smul_neg s W
  rw [pair_smul_right, ← pair_smul_left, ← pair_add_left, hneg, ← sub_eq_add_neg]

/-- Against the generator only zero pairs to zero. -/
theorem pair_generator_eq_zero_iff [Generator G₂] [PrimeOrder G₂] [Bilinear G₁ G₂ Gₜ]
    [Nondegenerate G₁ G₂ Gₜ] {P : G₁} :
    (pair P (Generator.generator : G₂) : Gₜ) = 0 ↔ P = 0 := by
  constructor
  · intro hzero
    have hall : ∀ Q : G₂, (pair P Q : Gₜ) = 0 := by
      intro Q
      obtain ⟨k, rfl⟩ := PrimeOrder.exists_smul_generator Q
      rw [pair_smul_right, hzero, smul_zero]
    exact Nondegenerate.eq_zero_of_pair_eq_zero P hall
  · rintro rfl
    rw [← zero_smul Scalar (0 : G₁), pair_smul_left, zero_smul]

/-- A pairing that is not zero on the base points is not degenerate. -/
theorem nondegenerate_of_generator [Generator G₁] [Generator G₂] [PrimeOrder G₁]
    [Bilinear G₁ G₂ Gₜ]
    (h : (pair (Generator.generator : G₁) (Generator.generator : G₂) : Gₜ) ≠ 0) :
    Nondegenerate G₁ G₂ Gₜ where
  eq_zero_of_pair_eq_zero P hP := by
    obtain ⟨k, rfl⟩ := PrimeOrder.exists_smul_generator P
    have hmultiple := hP Generator.generator
    rw [pair_smul_left, smul_eq_zero] at hmultiple
    rw [hmultiple.resolve_right h, zero_smul]

end Pairing

/-! ### The scalars as groups -/

instance : Generator Scalar := ⟨1⟩

instance : Pairing Scalar Scalar Scalar := ⟨fun a b => a * b⟩

instance : PrimeOrder Scalar where
  card_eq := by rw [Nat.card_eq_fintype_card, Residue.card_eq]
  generator_ne_zero := one_ne_zero

instance : Pairing.Bilinear Scalar Scalar Scalar where
  pair_add_left := add_mul
  pair_add_right := mul_add
  pair_smul_left := mul_assoc
  pair_smul_right k a b := mul_left_comm a k b

instance : Pairing.Nondegenerate Scalar Scalar Scalar where
  eq_zero_of_pair_eq_zero a h := (mul_one a).symm.trans (h 1)

end PlonkKzg
