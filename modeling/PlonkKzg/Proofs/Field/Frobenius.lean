import Mathlib.Algebra.CharP.Lemmas
import Mathlib.FieldTheory.Finite.Basic
import PlonkKzg.Proofs.Field.Tower

/-!
# The Frobenius map of the extension of degree twelve

An element is a sum of six terms `c wᵏ` with coefficients in `Fq2`. The power to `p ^ 2` is taken
term by term: it leaves the coefficients and multiplies `w` by a sixth root of unity. Three such
powers multiply `w` by minus one.

* `Fq2.pow_order_sq` — the power to `p ^ 2` leaves the coefficients;
* `Fq12.eq_sum_term`, `Fq12.term_pow_order_sq` — the six terms of an element, and their powers;
* `Fq12.frobeniusSquare_eq_pow` — `frobeniusSquare` is the power to `p ^ 2`;
* `Fq12.conj_eq_pow` — the conjugate is the power to `p ^ 6`.
-/

namespace PlonkKzg

namespace Fq2

/-- The base field in its extension. -/
def ofFqHom : Fq →+* Fq2 where
  toFun := ofFq
  map_zero' := rfl
  map_one' := rfl
  map_add' a b := by ext1 <;> simp [ofFq]
  map_mul' a b := by ext1 <;> simp [ofFq]

/-- Elements are the pairs of their coefficients. -/
def equivProd : Fq2 ≃ Fq × Fq where
  toFun a := (a.c0, a.c1)
  invFun c := ⟨c.1, c.2⟩

instance fintype : Fintype Fq2 := Fintype.ofEquiv (Fq × Fq) equivProd.symm

theorem card_eq : Fintype.card Fq2 = Fq.order ^ 2 := by
  have hcard : Fintype.card Fq = Fq.order := Residue.card_eq
  rw [Fintype.ofEquiv_card, Fintype.card_prod, hcard, pow_two]

theorem pow_order_sq (a : Fq2) : a ^ Fq.order ^ 2 = a := by
  rw [← card_eq]
  exact FiniteField.pow_card a

end Fq2

namespace Fq12

/-! ### Terms -/

/-- The elements of `Fq2` in the extension. -/
def ofFq2 : Fq2 →+* Fq12 where
  toFun c := ⟨⟨c, 0, 0⟩, 0⟩
  map_zero' := rfl
  map_one' := rfl
  map_add' a b := by ext1 <;> ext1 <;> simp
  map_mul' a b := by ext1 <;> ext1 <;> simp [Fq6.v]

/-- The element whose square is `v`. -/
def w : Fq12 := ⟨0, 1⟩

def term (c : Fq2) (k : Nat) : Fq12 := ofFq2 c * w ^ k

/-- An element as a sum of powers of `w` with coefficients in the quadratic extension. -/
theorem eq_sum_term (a : Fq12) :
    a = term a.c0.c0 0 + term a.c1.c0 1 + term a.c0.c1 2 + term a.c1.c1 3 + term a.c0.c2 4 +
      term a.c1.c2 5 := by
  ext1 <;> ext1 <;> simp [term, ofFq2, w, pow_succ, Fq6.v]

theorem w_pow_six : w ^ 6 = ofFq2 Fq2.xi := by
  ext1 <;> ext1 <;> simp [ofFq2, w, pow_succ, Fq6.v]

/-! ### The power to `p ^ 2` -/

instance charP : CharP Fq12 Fq.order := by
  have : Nontrivial Fq12 := ⟨1, 0, fun h => one_ne_zero (congrArg (fun a => a.c0.c0) h)⟩
  refine (CharP.charP_iff_prime_eq_zero Fq.order_prime).2 ?_
  have hzero : (Fq.order : Fq) = 0 := Residue.natCast_self
  rw [← map_natCast (ofFq2.comp Fq2.ofFqHom), hzero, map_zero]

/-- The constant is the power of `xi` it stands for, by evaluation. -/
theorem frobeniusRoot_eq_pow : frobeniusRoot = Fq2.xi ^ ((Fq.order ^ 2 - 1) / 6) := by
  rw [frobeniusRoot, power_eq_pow, pow_two]

theorem frobeniusRoot_pow_three : frobeniusRoot ^ 3 = -1 := by
  rw [← power_eq_pow]
  decide +kernel

/-- How the second power of Frobenius acts on `w`. -/
theorem w_pow_order_sq : w ^ Fq.order ^ 2 = ofFq2 frobeniusRoot * w := by
  have hexp : Fq.order ^ 2 = 6 * ((Fq.order ^ 2 - 1) / 6) + 1 := by decide
  rw [hexp, pow_succ, pow_mul, w_pow_six, ← map_pow, ← frobeniusRoot_eq_pow]

theorem term_pow_order_sq (c : Fq2) (k : Nat) :
    term c k ^ Fq.order ^ 2 = term (frobeniusRoot ^ k * c) k := by
  rw [term, mul_pow, ← map_pow, Fq2.pow_order_sq, ← pow_mul, mul_comm k, pow_mul, w_pow_order_sq,
    mul_pow, term, map_mul, map_pow]
  ring

/-- The coefficientwise formula is the power of Frobenius it is named for. -/
theorem frobeniusSquare_eq_pow (a : Fq12) : a.frobeniusSquare = a ^ Fq.order ^ 2 := by
  conv_rhs => rw [eq_sum_term a]
  simp only [add_pow_char_pow, term_pow_order_sq]
  rw [eq_sum_term a.frobeniusSquare]
  simp only [frobeniusSquare, power_eq_pow, pow_zero, one_mul, pow_one]

/-! ### The conjugate -/

theorem term_pow_order_six (c : Fq2) (k : Nat) :
    term c k ^ Fq.order ^ 6 = term ((-1) ^ k * c) k := by
  have hexp : Fq.order ^ 6 = Fq.order ^ 2 * Fq.order ^ 2 * Fq.order ^ 2 := by ring
  have hsign : frobeniusRoot ^ k * (frobeniusRoot ^ k * (frobeniusRoot ^ k * c)) =
      (frobeniusRoot ^ 3) ^ k * c := by ring
  rw [hexp, pow_mul, pow_mul, term_pow_order_sq, term_pow_order_sq, term_pow_order_sq, hsign,
    frobeniusRoot_pow_three]

/-- Conjugation is the sixth power of Frobenius. -/
theorem conj_eq_pow (a : Fq12) : a.conj = a ^ Fq.order ^ 6 := by
  conv_rhs => rw [eq_sum_term a]
  simp only [add_pow_char_pow, term_pow_order_six]
  rw [eq_sum_term a.conj]
  simp [conj, pow_succ]

end Fq12

end PlonkKzg
