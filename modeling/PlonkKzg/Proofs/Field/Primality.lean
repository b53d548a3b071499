import Mathlib.FieldTheory.Finite.Basic
import Mathlib.NumberTheory.LucasPrimality
import PlonkKzg.Proofs.Field.Ring

/-!
# The order of the scalars is a prime

Lucas's test: `p` is a prime if some residue has the order `p - 1`, and for that its powers to the
quotients of `p - 1` by the prime factors must not be one. The factors of the factors are tested
in the same way until they are small.

* `LucasTest p a factors` — the test with the residue of `a` and the factors of `p - 1`, in
  residues, so that it can be evaluated;
* `LucasTest.prime` — a number that passes is a prime;
* `LucasTest.orderOf_eq` — and the residue has the order `p - 1`;
* `PrimeChain` — a list of numbers that pass, each with the tests of its large factors behind it;
* `PrimeChain.factors_prime` — all numbers of such a list and all their factors are primes;
* `Scalar.order_prime`, `Scalar.orderOf_generator` — the order of the scalars is a prime, and the
  generator generates them.
-/

namespace PlonkKzg

open Residue

/-- The factors multiply to `p - 1`, and the powers of `a` show the order `p - 1`. -/
def LucasTest (p a : Nat) [Modulus p] (factors : List (Nat × Nat)) : Prop :=
  (factors.map fun f => Nat.pow f.1 f.2).prod = p - 1 ∧ power (ofNat p a) (p - 1) = 1 ∧
    ∀ f ∈ factors, power (ofNat p a) ((p - 1) / f.1) ≠ 1

instance (p a : Nat) [Modulus p] (factors : List (Nat × Nat)) :
    Decidable (LucasTest p a factors) :=
  inferInstanceAs (Decidable (_ ∧ _ ∧ ∀ f ∈ factors, _))

namespace LucasTest

variable {p a : Nat} [Modulus p] {factors : List (Nat × Nat)}

/-- Every prime factor of `p - 1` is one of those that were tested. -/
theorem power_ne_one (h : LucasTest p a factors) (hprime : ∀ f ∈ factors, f.1.Prime) {q : Nat}
    (hq : q.Prime) (hdvd : q ∣ p - 1) : power (ofNat p a) ((p - 1) / q) ≠ 1 := by
  obtain ⟨hprod, -, hne⟩ := h
  rw [← hprod] at hdvd
  obtain ⟨x, hx, hqx⟩ := (Prime.dvd_prod_iff hq.prime).1 hdvd
  obtain ⟨f, hf, rfl⟩ := List.mem_map.1 hx
  have hqf : q = f.1 := (Nat.prime_dvd_prime_iff_eq hq (hprime f hf)).1 (hq.dvd_of_dvd_pow hqx)
  rw [hqf]
  exact hne f hf

/-- A number that passes the Lucas test is prime. -/
theorem prime (h : LucasTest p a factors) (hprime : ∀ f ∈ factors, f.1.Prime) : p.Prime := by
  refine lucas_primality p (a : ZMod p) ((toZMod_pow_eq_one_iff a _).2 h.2.1) ?_
  intro q hq hdvd hone
  exact h.power_ne_one hprime hq hdvd ((toZMod_pow_eq_one_iff a _).1 hone)

/-- The base of the test is a primitive root. -/
theorem orderOf_eq (h : LucasTest p a factors) (hprime : ∀ f ∈ factors, f.1.Prime) :
    orderOf (ofNat p a) = p - 1 := by
  have htwo : 2 ≤ p := (h.prime hprime).two_le
  refine orderOf_eq_of_pow_and_pow_div_prime (by omega) ?_ ?_
  · rw [← power_eq_pow]
    exact h.2.1
  · intro q hq hdvd
    rw [← power_eq_pow]
    exact h.power_ne_one hprime hq hdvd

end LucasTest

/-! ### Chains of tests -/

/-- A prime that trial division finds: no number from two on divides it whose two digits are below
`m`, a power of two whose fourth power is above it. -/
def SmallPrime (n : Nat) : Prop :=
  2 ≤ n ∧
    let m := Nat.pow 2 (n.log2 / 4 + 1)
    ∀ a < m, ∀ b < m, 2 ≤ a * m + b → a * m + b < n → n % (a * m + b) ≠ 0

instance (n : Nat) : Decidable (SmallPrime n) :=
  inferInstanceAs (Decidable (2 ≤ n ∧ ∀ a < Nat.pow 2 (n.log2 / 4 + 1),
    ∀ b < Nat.pow 2 (n.log2 / 4 + 1), 2 ≤ a * Nat.pow 2 (n.log2 / 4 + 1) + b →
      a * Nat.pow 2 (n.log2 / 4 + 1) + b < n → n % (a * Nat.pow 2 (n.log2 / 4 + 1) + b) ≠ 0))

/-- The least factor is at most the square root, and the two digits reach that far. -/
theorem SmallPrime.prime {n : Nat} (h : SmallPrime n) : n.Prime := by
  obtain ⟨htwo, hdigits⟩ := h
  by_contra hn
  have hfactor : n.minFac.Prime := Nat.minFac_prime (by omega)
  have hlt : n.minFac < n := (Nat.minFac_le (by omega)).lt_of_ne fun he => hn (he ▸ hfactor)
  have hsquare : n.minFac ^ 2 ≤ n := Nat.minFac_sq_le_self (by omega) hn
  have hbound : n < (2 ^ (n.log2 / 4 + 1) * 2 ^ (n.log2 / 4 + 1)) ^ 2 := by
    rw [← pow_add, ← pow_mul]
    exact Nat.lt_log2_self.trans_le (Nat.pow_le_pow_right (by decide) (by omega))
  have hsmall : n.minFac < 2 ^ (n.log2 / 4 + 1) * 2 ^ (n.log2 / 4 + 1) :=
    lt_of_pow_lt_pow_left₀ 2 (Nat.zero_le _) (hsquare.trans_lt hbound)
  have hdiv := hdigits (n.minFac / 2 ^ (n.log2 / 4 + 1)) (Nat.div_lt_of_lt_mul hsmall)
    (n.minFac % 2 ^ (n.log2 / 4 + 1)) (Nat.mod_lt _ (by positivity))
  rw [Nat.pow_eq, Nat.mul_comm, Nat.div_add_mod] at hdiv
  exact hdiv hfactor.two_le hlt (Nat.mod_eq_zero_of_dvd n.minFac_dvd)

/-- A number, a residue to test it with, and the factors of the number less one. -/
structure Certificate where
  number : Nat
  residue : Nat
  factors : List (Nat × Nat)

/-- The number is positive and passes the test. -/
def Certificate.Passes (c : Certificate) : Prop :=
  ∃ h : 0 < c.number, @LucasTest c.number c.residue ⟨h⟩ c.factors

instance (c : Certificate) : Decidable c.Passes :=
  if h : 0 < c.number then
    have : Modulus c.number := ⟨h⟩
    decidable_of_iff (LucasTest c.number c.residue c.factors) ⟨fun t => ⟨h, t⟩, fun ⟨_, t⟩ => t⟩
  else isFalse fun ⟨h', _⟩ => h h'

/-- Every number passes, and its factors are small or have certificates further on. -/
def PrimeChain : List Certificate → Prop
  | [] => True
  | c :: cs =>
      c.Passes ∧ (∀ f ∈ c.factors, f.1 ∈ cs.map (·.number) ∨ SmallPrime f.1) ∧ PrimeChain cs

instance primeChainDecidable : (cs : List Certificate) → Decidable (PrimeChain cs)
  | [] => inferInstanceAs (Decidable True)
  | c :: cs =>
      have := primeChainDecidable cs
      inferInstanceAs (Decidable (c.Passes ∧
        (∀ f ∈ c.factors, f.1 ∈ cs.map (·.number) ∨ SmallPrime f.1) ∧ PrimeChain cs))

/-- Along a chain of certificates every number is prime, by induction from the smallest. -/
theorem PrimeChain.factors_prime {cs : List Certificate} (h : PrimeChain cs) :
    ∀ c ∈ cs, c.number.Prime ∧ ∀ f ∈ c.factors, f.1.Prime := by
  induction cs with
  | nil => simp
  | cons c cs ih =>
      obtain ⟨⟨hpos, htest⟩, hfactors, hrest⟩ := h
      have hprime : ∀ f ∈ c.factors, f.1.Prime := by
        intro f hf
        rcases hfactors f hf with hlater | hsmall
        · obtain ⟨c', hc', hnumber⟩ := List.mem_map.1 hlater
          exact hnumber ▸ (ih hrest c' hc').1
        · exact hsmall.prime
      intro c' hc'
      rcases List.mem_cons.1 hc' with rfl | hc'
      · exact ⟨@LucasTest.prime _ _ ⟨hpos⟩ _ htest hprime, hprime⟩
      · exact ih hrest c' hc'

/-! ### The order of the scalars -/

namespace Scalar

/-- The prime factors of `r - 1` with their exponents. -/
def orderFactors : List (Nat × Nat) :=
  [(2, 28), (3, 2), (13, 1), (29, 1), (983, 1), (11003, 1), (237073, 1), (405928799, 1),
    (1670836401704629, 1), (13818364434197438864469338081, 1)]

/-- The certificate of `r`, then those of its large factors and of theirs. -/
def orderChain : List Certificate :=
  [⟨order, 5, orderFactors⟩,
    ⟨13818364434197438864469338081, 3,
      [(2, 5), (5, 1), (823, 1), (1593227, 1), (65865678001877903, 1)]⟩,
    ⟨65865678001877903, 5, [(2, 1), (83, 1), (379, 1), (1637, 1), (639533339, 1)]⟩,
    ⟨639533339, 2, [(2, 1), (229, 1), (853, 1), (1637, 1)]⟩,
    ⟨1670836401704629, 2, [(2, 2), (3, 4), (5156902474397, 1)]⟩,
    ⟨5156902474397, 2, [(2, 2), (107, 1), (12048837557, 1)]⟩,
    ⟨12048837557, 2, [(2, 2), (7, 2), (661, 1), (93001, 1)]⟩,
    ⟨405928799, 22, [(2, 1), (11, 1), (3691, 1), (4999, 1)]⟩]

theorem orderChain_primeChain : PrimeChain orderChain := by decide +kernel

/-- The order of the scalar field is prime. -/
theorem order_prime : order.Prime :=
  (orderChain_primeChain.factors_prime ⟨order, 5, orderFactors⟩ List.mem_cons_self).1

theorem orderFactors_prime : ∀ f ∈ orderFactors, f.1.Prime :=
  (orderChain_primeChain.factors_prime ⟨order, 5, orderFactors⟩ List.mem_cons_self).2

theorem lucasTest_order : LucasTest order 5 orderFactors := orderChain_primeChain.1.2

/-- The generator generates all scalars other than zero. -/
theorem orderOf_generator : orderOf generator = order - 1 :=
  lucasTest_order.orderOf_eq orderFactors_prime

instance : Fact order.Prime := ⟨order_prime⟩

end Scalar

/-! ### The field -/

/-- The power to `m - 2` is the inverse if `m` is a prime, and the inverse of zero is zero if `m`
is larger than two. -/
theorem Residue.mul_inv_of_prime {m : Nat} [Modulus m] (hm : m.Prime) {a : Residue m}
    (ha : a ≠ 0) : a * a⁻¹ = 1 := by
  have : Fact m.Prime := ⟨hm⟩
  have htwo : 2 ≤ m := hm.two_le
  have hclass : a.toZMod ≠ 0 := by
    rw [← toZMod_zero]
    exact fun h => ha (toZMod_injective h)
  apply toZMod_injective
  show (a * power a (m - 2)).toZMod = _
  rw [power_eq_pow, ← pow_succ', toZMod_pow, toZMod_one, show m - 2 + 1 = m - 1 by omega]
  exact ZMod.pow_card_sub_one_eq_one hclass

theorem Residue.inv_zero_of_lt {m : Nat} [Modulus m] (hm : 2 < m) : (0 : Residue m)⁻¹ = 0 := by
  show power 0 (m - 2) = 0
  rw [power_eq_pow, zero_pow (by omega)]

theorem Residue.one_ne_zero_of_lt {m : Nat} [Modulus m] (hm : 1 < m) : (1 : Residue m) ≠ 0 := by
  intro h
  have hval : (1 : Residue m).val = (0 : Residue m).val := congrArg Residue.val h
  rw [val_one, val_zero, Nat.mod_eq_of_lt hm] at hval
  exact absurd hval (by decide)

instance Scalar.field : Field Scalar where
  exists_pair_ne := ⟨1, 0, one_ne_zero_of_lt (by decide)⟩
  mul_inv_cancel _ ha := mul_inv_of_prime Scalar.order_prime ha
  inv_zero := inv_zero_of_lt (by decide)
  nnqsmul := _
  nnqsmul_def _ _ := rfl
  qsmul := _
  qsmul_def _ _ := rfl

end PlonkKzg
