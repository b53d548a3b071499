import PlonkKzg.Prover.Accumulator

/-!
# The quotient

The equation of the gates and that of the accumulator, combined by a challenge, vanish on all rows;
the quotient by the polynomial that vanishes there is computed on four cosets, where it does not.

* `SameLength` — lists that are read side by side;
* `gateValues` — the gate equation, point by point;
* `orderingValue`, `orderingValues` — the equation of the accumulator, at one point and point by
  point;
* `quotient` — the combination of both, divided by `X ^ N - 1`, as a polynomial.
-/

namespace PlonkKzg

/-- All lists are as long as the first one. -/
def SameLength (columns : List (List Scalar)) : Prop :=
  ∀ column ∈ columns, column.length = (columns.headD []).length

instance (columns : List (List Scalar)) : Decidable (SameLength columns) :=
  inferInstanceAs (Decidable (∀ column ∈ columns, column.length = (columns.headD []).length))

def gateValues (selectors : Selectors (List Scalar)) (wires : Wires (List Scalar)) :
    Except Error (List Scalar) :=
  if SameLength (selectors.toList ++ wires.toList) then
    .ok (List.zipWith gateValue selectors.rows wires.rows)
  else .error .badArguments

/-- What a proof system knows of the accumulator at a point. -/
structure AccumulatorPoint where
  /-- The point. -/
  x : Scalar
  /-- The accumulator there. -/
  z : Scalar
  /-- The accumulator one row on. -/
  zNext : Scalar
  /-- The labels of the next positions. -/
  sigma : Wires Scalar

/-- The equation of the accumulator at a point, times the left wire. -/
def orderingValue (shifters : Shifters) (gamma : Scalar) (wires : Wires Scalar)
    (p : AccumulatorPoint) : Scalar :=
  (p.zNext * rowFactor gamma wires p.sigma - p.z * rowFactor gamma wires (shifters.rowLabels p.x)) *
    wires.l

/-- The columns of what is known of the accumulator, one list per part. -/
structure AccumulatorColumns where
  x : List Scalar
  z : List Scalar
  zNext : List Scalar
  sigma : Wires (List Scalar)

namespace AccumulatorColumns

def toList (c : AccumulatorColumns) : List (List Scalar) := [c.z, c.zNext] ++ c.sigma.toList ++ [c.x]

/-- The points, up to the end of the shortest column. -/
def points (c : AccumulatorColumns) : List AccumulatorPoint :=
  List.zipWith (fun x p => ⟨x, p.1, p.2.1, p.2.2⟩) c.x (c.z.zip (c.zNext.zip c.sigma.rows))

end AccumulatorColumns

/-- The equation of the accumulator at each point. -/
def orderingValues (shifters : Shifters) (gamma : Scalar) (wires : Wires (List Scalar))
    (columns : AccumulatorColumns) : Except Error (List Scalar) :=
  if SameLength (wires.toList ++ columns.toList) then
    .ok (List.zipWith (orderingValue shifters gamma) wires.rows columns.points)
  else .error .badArguments

/-- The polynomial that has the values of `gates + alpha * ordering`, divided by `X ^ N - 1`, on the
four odd cosets of the domain. -/
def quotient (domain quotientDomain : Domain) (gates ordering : List Scalar) (alpha : Scalar) :
    Except Error Poly := do
  if ¬ (gates.length = cosetCount * domain.size ∧ ordering.length = gates.length ∧
      quotientDomain.size = gates.length) then throw .badArguments
  let inverses ← domain.vanishingInverses
  let numerators := List.zipWith (fun g t => g + alpha * t) gates ordering
  quotientDomain.interpolateCosets
    (List.zipWith (· * ·) numerators (List.replicate domain.size inverses).flatten)

example : gateValues ⟨[1], [1], [0], [-1], [0]⟩ ⟨[1], [1], [1 + 1]⟩ = .ok [0] := by rfl
example : gateValues ⟨[1], [1], [0], [-1], []⟩ ⟨[1], [1], [1]⟩ = .error .badArguments := by rfl

end PlonkKzg
