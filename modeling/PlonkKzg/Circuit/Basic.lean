import PlonkKzg.Capacity
import PlonkKzg.Circuit.Wires
import PlonkKzg.Wire.Element

/-!
# Circuits

Constraint systems of gates over numbered variables.

* `Gate` — the variables on the three wires and the five selectors;
* `Circuit` — the gates that define variables, the gates that only check them, and the number of
  variables. Variable 0 is there from the start; it has to be zero and pads unused rows;
* `Circuit.Method`, `Circuit.perform` — calls that change a circuit in place, and what one gives and
  leaves behind;
* `Circuit.allocate` — a new variable;
* `Circuit.addConstraint`, `Circuit.addAssertion` — a new gate, refused if it names a variable that
  is not there;
* `Gate.mul`, `Gate.add`, `Gate.constant` — the usual gates;
* `Circuit.check` — whether an assignment satisfies all gates;
* `Circuit.wireColumns` — the values of an assignment on the wires of all rows.
-/

namespace PlonkKzg

abbrev Variable : Type := UInt64

/-- The variables on the wires of a gate and the coefficients of its equation. -/
@[ext] structure Gate where
  wires : Wires Variable
  selectors : Selectors Scalar
deriving DecidableEq

namespace Gate

def lookup (w : List Scalar) (v : Variable) : Except Error Scalar :=
  match w[v.toNat]? with
  | some a => .ok a
  | none => .error .invalidWitness

def wireValues (g : Gate) (w : List Scalar) : Except Error (Wires Scalar) :=
  g.wires.mapM (lookup w)

def eval (g : Gate) (w : List Scalar) : Except Error Scalar := do
  let ws ← g.wireValues w
  pure (gateValue g.selectors ws)

/-- The gate of `left * right = out`. -/
def mul (left right out : Variable) : Gate := ⟨⟨left, right, out⟩, ⟨0, 0, 1, -1, 0⟩⟩

/-- The gate of `left + right = out`. -/
def add (left right out : Variable) : Gate := ⟨⟨left, right, out⟩, ⟨1, 1, 0, -1, 0⟩⟩

/-- The gate of `v = c`. -/
def constant (v : Variable) (c : Scalar) : Gate := ⟨⟨v, 0, 0⟩, ⟨1, 0, 0, 0, -c⟩⟩

def codec : Codec Gate :=
  let s := Encoded.codec Scalar
  (Fields.cons "l" .word <| .cons "r" .word <| .cons "o" .word <| .cons "ql" s <| .cons "qr" s <|
    .cons "qm" s <| .cons "qo" s <| .cons "qk" s .none).record.map
    (fun (l, r, o, ql, qr, qm, qo, qk, _) => ⟨⟨l, r, o⟩, ⟨ql, qr, qm, qo, qk⟩⟩)
    (fun g => (g.wires.l, g.wires.r, g.wires.o, g.selectors.ql, g.selectors.qr, g.selectors.qm,
      g.selectors.qo, g.selectors.qk, ()))

end Gate

/-- The gates of a circuit and the number of its variables. -/
@[ext] structure Circuit where
  constraints : List Gate
  assertions : List Gate
  varCount : UInt64
deriving DecidableEq

namespace Circuit

/-- No gates, and variable 0. -/
def empty : Circuit := ⟨[], [], 1⟩

def rows (c : Circuit) : List Gate := c.constraints ++ c.assertions

def size (c : Circuit) : Nat := c.constraints.length + c.assertions.length

theorem rows_length (c : Circuit) : c.rows.length = c.size := List.length_append

/-- The exponent of the smallest power of two that is at least two and not below the number of
gates. -/
def domainLog (c : Circuit) : Nat := if c.size ≤ 2 then 1 else (c.size - 1).log2 + 1

def domainSize (c : Circuit) : Nat := Nat.pow 2 c.domainLog

theorem size_le_domainSize (c : Circuit) : c.size ≤ c.domainSize := by
  unfold domainSize domainLog
  split
  · assumption
  · have h := @Nat.lt_log2_self (c.size - 1)
    rw [Nat.pow_eq]
    omega

/-- Whether all wires of a gate carry variables of the circuit. -/
def Admits (c : Circuit) (g : Gate) : Prop := ∀ v ∈ g.wires.toList, v < c.varCount

instance (c : Circuit) (g : Gate) : Decidable (c.Admits g) :=
  List.decidableBAll (· < c.varCount) g.wires.toList

/-- A call that changes a circuit in place. It gives a value or an error, and in both cases it leaves
a circuit behind. -/
abbrev Method (ε α : Type) : Type := ExceptT ε (StateM Circuit) α

/-- The outcome of a method on a circuit, and the circuit that it leaves behind. -/
def perform {ε α : Type} (c : Circuit) (m : Method ε α) : Except ε α × Circuit := m.run.run c

/-- Gives out the next variable. The number of variables is a machine word. -/
def allocate : Method Fault Variable := do
  requireWord ((← get).varCount.toNat + 1)
  modify fun c => { c with varCount := c.varCount + 1 }
  pure ((← get).varCount - 1)

/-- Refuses a gate with a wire that carries no variable of the circuit. -/
def requireWires (g : Gate) : Method Error Unit := do
  if ¬(← get).Admits g then throw .badArguments

def addConstraint (g : Gate) : Method Error Unit := do
  requireWires g
  modify fun c => { c with constraints := c.constraints ++ [g] }

def addAssertion (g : Gate) : Method Error Unit := do
  requireWires g
  modify fun c => { c with assertions := c.assertions ++ [g] }

/-- Puts in the constraint `left * right = out`. -/
def addMul (left right out : Variable) : Method Error Unit := addConstraint (.mul left right out)

/-- Puts in the constraint `left + right = out`. -/
def addAdd (left right out : Variable) : Method Error Unit := addConstraint (.add left right out)

/-- Puts in the assertion `v = k`. -/
def addConstant (v : Variable) (k : Scalar) : Method Error Unit := addAssertion (.constant v k)

/-- Refuses the first gate whose equation does not hold. -/
def checkRows (w : List Scalar) : List Gate → Except Error Unit
  | [] => .ok ()
  | g :: gs => do
      let value ← g.eval w
      if value ≠ 0 then throw .invalidWitness
      checkRows w gs

/-- Whether an assignment has a value for every variable, zero for variable 0, and satisfies all
gates. An assignment without any value must not get as far as its first one. -/
def check (c : Circuit) (w : List Scalar) : Except Fault Unit :=
  if w.length < c.varCount.toNat then .error (.error .badArguments)
  else
    match w with
    | [] => .error (.misuse .emptyAssignment)
    | first :: _ =>
      if first ≠ 0 then .error (.error .invalidWitness)
      else (checkRows w c.rows).mapError .error

/-- The values of an assignment on the wires of `n` rows. Rows after the last gate have the value
of variable 0 on all wires. -/
def wireColumns (c : Circuit) (w : List Scalar) (n : Nat) :
    Except Fault (Wires (List Scalar)) := do
  let some padding := w.head? | throw (.error .badArguments)
  if w.length < c.varCount.toNat ∨ n < c.size then throw (.error .badArguments)
  requireTable n scalarWidth
  let values ← (c.rows.mapM (·.wireValues w) : Except Error (List (Wires Scalar)))
  pure ((Wires.columns values).map (· ++ List.replicate (n - c.size) padding))

def codec : Codec Circuit :=
  (Fields.cons "constraints" Gate.codec.list <| .cons "assertions" Gate.codec.list <|
    .cons "num_vars" .word .none).record.map
    (fun (constraints, assertions, varCount, _) => ⟨constraints, assertions, varCount⟩)
    (fun c => (c.constraints, c.assertions, c.varCount, ()))

end Circuit

end PlonkKzg
