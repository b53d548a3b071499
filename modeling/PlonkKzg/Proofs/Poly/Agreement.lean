import Mathlib.Algebra.Polynomial.Roots
import Mathlib.Data.Set.Card
import PlonkKzg.Proofs.Poly.Polynomial

/-!
# How often two polynomials agree

Different polynomials agree at no more points than their degrees say, and there are many more
scalars than that.

* `Poly.encard_agree_le` — the number of points where two polynomials agree;
* `Poly.shiftedProduct` — the product of the items of a multiset, each shifted by a scalar;
* `Poly.encard_shiftedProduct_le` — two multisets of one size give the same product for few shifts
  unless they are equal;
* `Poly.encard_shiftedProduct_zero_le` — and the product is zero for few shifts;
* `Poly.encard_univ` — how many scalars there are.
-/

namespace PlonkKzg

namespace Poly

open Polynomial

/-- Two different polynomials agree at no more points than their degree. -/
theorem encard_agree_le {p q : Scalar[X]} (hne : p ≠ q) {n : Nat} (hp : p.natDegree ≤ n)
    (hq : q.natDegree ≤ n) : {x | p.eval x = q.eval x}.encard ≤ n := by
  have hsub : {x | p.eval x = q.eval x} ⊆ ((p - q).roots.toFinset : Set Scalar) := by
    intro x hx
    have hroot : (p - q).eval x = 0 := by
      rw [Polynomial.eval_sub, sub_eq_zero]
      exact hx
    simpa [mem_roots (sub_ne_zero.2 hne)] using hroot
  have hcard : (p - q).roots.toFinset.card ≤ n :=
    calc (p - q).roots.toFinset.card
        ≤ Multiset.card (p - q).roots := Multiset.toFinset_card_le _
      _ ≤ (p - q).natDegree := card_roots' _
      _ ≤ n := (natDegree_sub_le p q).trans (max_le hp hq)
  refine (Set.encard_le_encard hsub).trans ?_
  rw [Set.encard_coe_eq_coe_finsetCard]
  exact_mod_cast hcard

/-! ### Products of shifted items -/

/-- The product of all items, each plus the shift. -/
def shiftedProduct (s : Multiset Scalar) (shift : Scalar) : Scalar := (s.map (shift + ·)).prod

/-- The polynomial in the shift whose roots are the negated items. -/
noncomputable def shiftPolynomial (s : Multiset Scalar) : Scalar[X] :=
  ((s.map Neg.neg).map fun a => X - C a).prod

theorem eval_shiftPolynomial (s : Multiset Scalar) (shift : Scalar) :
    (shiftPolynomial s).eval shift = shiftedProduct s shift := by
  rw [shiftPolynomial, eval_multiset_prod, Multiset.map_map, Multiset.map_map, shiftedProduct]
  refine congrArg Multiset.prod (Multiset.map_congr rfl ?_)
  intro a _
  simp

theorem natDegree_shiftPolynomial (s : Multiset Scalar) :
    (shiftPolynomial s).natDegree = Multiset.card s := by
  rw [shiftPolynomial, natDegree_multiset_prod_X_sub_C_eq_card, Multiset.card_map]

/-- A multiset is determined by its shifted product, as a polynomial in the shift. -/
theorem shiftPolynomial_injective : Function.Injective shiftPolynomial := by
  intro s t h
  have hroots := congrArg roots h
  rw [shiftPolynomial, shiftPolynomial, roots_multiset_prod_X_sub_C,
    roots_multiset_prod_X_sub_C] at hroots
  exact Multiset.map_injective neg_injective hroots

/-- Different multisets have equal shifted products at few shifts. -/
theorem encard_shiftedProduct_le {s t : Multiset Scalar} (hne : s ≠ t) {n : Nat}
    (hs : Multiset.card s ≤ n) (ht : Multiset.card t ≤ n) :
    {shift | shiftedProduct s shift = shiftedProduct t shift}.encard ≤ n := by
  have h := encard_agree_le (shiftPolynomial_injective.ne hne)
    ((natDegree_shiftPolynomial s).trans_le hs) ((natDegree_shiftPolynomial t).trans_le ht)
  simpa only [eval_shiftPolynomial] using h

/-- A shifted product vanishes at few shifts. -/
theorem encard_shiftedProduct_zero_le {s : Multiset Scalar} {n : Nat} (hs : Multiset.card s ≤ n) :
    {shift | shiftedProduct s shift = 0}.encard ≤ n := by
  have hne : shiftPolynomial s ≠ 0 := by
    rw [shiftPolynomial]
    exact (monic_multiset_prod_of_monic _ _ fun a _ => monic_X_sub_C a).ne_zero
  have h := encard_agree_le hne ((natDegree_shiftPolynomial s).trans_le hs)
    (natDegree_zero.trans_le (Nat.zero_le n))
  simpa only [eval_shiftPolynomial, eval_zero] using h

theorem encard_univ : (Set.univ : Set Scalar).encard = Scalar.order := by
  rw [Set.encard_univ, ENat.card_eq_coe_fintype_card, Residue.card_eq]

end Poly

end PlonkKzg
