import PlonkKzg.Error
import PlonkKzg.Field.Scalar
import PlonkKzg.Domain.PowerOfTwo

/-!
# Evaluation domains

The subgroups of the multiplicative group of the scalars whose sizes are powers of two, each with
a finer root of unity that shifts the subgroup to its cosets.

* `maxLog` — subgroups of size `2 ^ k` exist for `k ≤ 28`;
* `rootOfUnity k` — the generator of the subgroup of size `2 ^ k`;
* `Domain` — a size `2 ^ log`, and a depth: the finer root has order `2 ^ (log + depth)`;
* `Domain.ofSize` — the domain of a given size and depth;
* `geometric` — the terms of a geometric progression.
-/

namespace PlonkKzg

/-- The exponent of two in the order of the multiplicative group. -/
def maxLog : Nat := 28

/-- The generator of the subgroup of size `2 ^ k`, for `k` up to `maxLog`. -/
def rootOfUnity (k : Nat) : Scalar := power Scalar.generator ((Scalar.order - 1) / Nat.pow 2 k)

/-- The first `n` terms of the geometric progression from `start` with a given ratio. -/
def geometric (start ratio : Scalar) : Nat → List Scalar
  | 0 => []
  | n + 1 => start :: geometric (start * ratio) ratio n

@[simp] theorem geometric_length (start ratio : Scalar) (n : Nat) :
    (geometric start ratio n).length = n := by
  induction n generalizing start with
  | zero => rfl
  | succ n ih => simp only [geometric, List.length_cons, ih]

/-- A subgroup of size `2 ^ log` and a root of unity finer by `depth` halvings. -/
@[ext] structure Domain where
  log : Nat
  depth : Nat
  bounded : log + depth ≤ maxLog

namespace Domain

instance : DecidableEq Domain := fun d e =>
  if h : d.log = e.log ∧ d.depth = e.depth then isTrue (Domain.ext h.1 h.2)
  else isFalse fun he => h (he ▸ ⟨rfl, rfl⟩)

/-- The domain of `n` elements with a given depth. A size that is no power of two, or that a
machine word cannot hold together with the depth, is reported as it is; otherwise the error names
the smaller of the two subgroups that do not exist. -/
def ofSize (n depth : Nat) : Except Error Domain :=
  match exactLog2? n with
  | none => .error (.noSubgroup n)
  | some k =>
    if h : k + depth ≤ maxLog then .ok ⟨k, depth, h⟩
    else if 64 ≤ k + depth ∨ maxLog < k then .error (.noSubgroup n)
    else .error (.noSubgroup (Nat.pow 2 (k + depth)))

def size (d : Domain) : Nat := Nat.pow 2 d.log

def generator (d : Domain) : Scalar := rootOfUnity d.log

/-- The root of unity for shifts to cosets. -/
def finerGenerator (d : Domain) : Scalar := rootOfUnity (d.log + d.depth)

def generatorInv (d : Domain) : Scalar := d.generator⁻¹

def finerGeneratorInv (d : Domain) : Scalar := d.finerGenerator⁻¹

def sizeInv (d : Domain) : Scalar := (Scalar.ofNat d.size)⁻¹

def element (d : Domain) (i : Nat) : Scalar := power d.generator i

/-- The shift of a coset: a power of the finer root. -/
def cosetShift (d : Domain) (coset : Nat) : Scalar := power d.finerGenerator coset

def elements (d : Domain) : List Scalar := geometric 1 d.generator d.size

theorem ofSize_eq_ok {n depth : Nat} {d : Domain} (h : ofSize n depth = .ok d) :
    d.size = n ∧ d.depth = depth := by
  unfold ofSize at h
  split at h
  · cases h
  · rename_i k hk
    split at h
    · injection h with hd
      subst hd
      exact ⟨(exactLog2?_eq_some_iff.1 hk).symm, rfl⟩
    · split at h <;> cases h

example : rootOfUnity 1 = -1 := by decide +kernel

end Domain

end PlonkKzg
