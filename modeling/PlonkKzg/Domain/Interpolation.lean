import PlonkKzg.Domain.Transform
import PlonkKzg.Poly.Basic

/-!
# Values and coefficients

Polynomials by their values on a domain, and on the odd cosets of a domain.

* `Domain.evaluate`, `Domain.interpolate` — between coefficients and values at the elements;
* `Domain.evaluateCosets` — the values at `w ^ i * u ^ (2 j + 1)` for `j < 4`, where the finer root
  `u` of depth three has `u ^ 8 = w`; the value for `i` and `j` has place `4 i + j`;
* `Domain.interpolateCosets` — from these values to coefficients, on the domain of four times the
  size and depth one, whose first coset lists the same points in the same order;
* `Domain.cosetPoints` — the points themselves.
-/

namespace PlonkKzg

/-- The number of cosets on which quotients are computed. -/
def cosetCount : Nat := 4

/-- Four lists of one length, one item of each in turn. -/
def interleave {α : Type} : List α → List α → List α → List α → List α
  | a :: as, b :: bs, c :: cs, d :: ds => a :: b :: c :: d :: interleave as bs cs ds
  | _, _, _, _ => []

namespace Domain

/-- The coefficients, filled up with zeros to the size of the domain. -/
def padded (d : Domain) (p : Poly) : Except Error (List Scalar) :=
  if p.coefs.length ≤ d.size then
    .ok (p.coefs ++ List.replicate (d.size - p.coefs.length) 0)
  else .error .badArguments

/-- The values on a coset in natural order. -/
def cosetValues (d : Domain) (coset : Nat) (as : List Scalar) : List Scalar :=
  bitReverse (d.transform .frequency coset as)

/-- The polynomial with given values on a coset in natural order. -/
def ofCosetValues (d : Domain) (coset : Nat) (vs : List Scalar) : Poly :=
  .ofCoefs (bitReverse (d.inverseTransform .frequency coset vs))

def evaluate (d : Domain) (p : Poly) : Except Error (List Scalar) := do
  let as ← d.padded p
  pure (d.cosetValues 0 as)

def interpolate (d : Domain) (vs : List Scalar) : Except Error Poly :=
  if vs.length = d.size then .ok (d.ofCosetValues 0 vs) else .error .badArguments

/-- The values on the four odd cosets of a domain of depth three, interleaved. -/
def evaluateCosets (d : Domain) (p : Poly) : Except Error (List Scalar) := do
  if d.depth ≠ 3 then throw .badArguments
  let as ← d.padded p
  pure (interleave (d.cosetValues 1 as) (d.cosetValues 3 as) (d.cosetValues 5 as)
    (d.cosetValues 7 as))

/-- The polynomial with given interleaved values, on the domain of depth one. -/
def interpolateCosets (d : Domain) (vs : List Scalar) : Except Error Poly :=
  if d.depth = 1 ∧ vs.length = d.size then .ok (d.ofCosetValues 1 vs) else .error .badArguments

/-- The points of the four odd cosets, interleaved. -/
def cosetPoints (d : Domain) : List Scalar :=
  let shifts := geometric d.finerGenerator (d.finerGenerator * d.finerGenerator) cosetCount
  d.elements.flatMap fun x => shifts.map (x * ·)

/-- The inverses of `x ^ N - 1` on the four odd cosets, where it is constant. -/
def vanishingInverses (d : Domain) : Except Error (List Scalar) :=
  let v := power d.finerGenerator d.size
  match Scalar.invertAll ((geometric v (v * v) cosetCount).map (· - 1)) with
  | .ok inverses => .ok inverses
  | .error _ => .error .divisionByZero

end Domain

end PlonkKzg
