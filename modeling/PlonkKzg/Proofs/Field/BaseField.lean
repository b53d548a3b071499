import PlonkKzg.Field.Fq
import PlonkKzg.Proofs.Field.Primality

/-!
# The base field is a field

The order of the coordinates of the first pairing group is a prime, by the same test as that of the
scalars.

* `Fq.order_prime` — the order is a prime;
* `Fq.field` — so the residues are a field.
-/

namespace PlonkKzg

namespace Fq

/-- The prime factors of `p - 1` with their exponents. -/
def orderFactors : List (Nat × Nat) :=
  [(2, 1), (3, 2), (13, 1), (29, 1), (67, 1), (229, 1), (311, 1), (983, 1), (11003, 1),
    (405928799, 1), (11465965001, 1), (13427688667394608761327070753331941386769, 1)]

/-- The certificate of `p`, then those of its large factors and of theirs. -/
def orderChain : List Certificate :=
  [⟨order, 3, orderFactors⟩,
    ⟨13427688667394608761327070753331941386769, 17,
      [(2, 4), (3, 1), (7, 1), (11, 1), (1853641, 1), (4562087, 1), (173171039, 1),
        (2480874801745591, 1)]⟩,
    ⟨2480874801745591, 6, [(2, 1), (3, 2), (5, 1), (19, 1), (41, 1), (35385462869, 1)]⟩,
    ⟨35385462869, 2, [(2, 2), (7, 1), (1263766531, 1)]⟩,
    ⟨1263766531, 10, [(2, 1), (3, 1), (5, 1), (13, 1), (911, 1), (3557, 1)]⟩,
    ⟨173171039, 13, [(2, 1), (73, 1), (89, 1), (13327, 1)]⟩,
    ⟨11465965001, 3, [(2, 3), (5, 4), (7, 1), (327599, 1)]⟩,
    ⟨405928799, 22, [(2, 1), (11, 1), (3691, 1), (4999, 1)]⟩]

/-- The certificates chain down to small primes, by evaluation. -/
theorem orderChain_primeChain : PrimeChain orderChain := by decide +kernel

/-- The base field's order is prime. -/
theorem order_prime : order.Prime :=
  (orderChain_primeChain.factors_prime ⟨order, 3, orderFactors⟩ List.mem_cons_self).1

instance : Fact order.Prime := ⟨order_prime⟩

instance field : Field Fq where
  exists_pair_ne := ⟨1, 0, Residue.one_ne_zero_of_lt (by decide)⟩
  mul_inv_cancel _ ha := Residue.mul_inv_of_prime order_prime ha
  inv_zero := Residue.inv_zero_of_lt (by decide)
  nnqsmul := _
  nnqsmul_def _ _ := rfl
  qsmul := _
  qsmul_def _ _ := rfl

end Fq

end PlonkKzg
