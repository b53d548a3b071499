import PlonkKzg.Circuit.Basic

/-!
# The permutation of the copy constraints

A circuit of `n` rows has `3 n` wire positions, column after column. The positions that carry the
same variable have to carry the same value; they are joined to a cycle. The number of positions is a
machine word.

* `Circuit.wiring n` — the variable of each position, variable 0 on rows after the last gate;
* `nextPositions` — for each position the next one with the same entry, or the first one if there
  is none after it;
* `Circuit.Tabulable n` — whether memory has room for the variables and the positions;
* `Circuit.permutation n` — the next position of each position of the wiring.
-/

namespace PlonkKzg

/-- The next position with the same entry, for each entry of the end `rest` of a list `all`, where
`rest` starts at position `p`. Behind the last position of an entry its first one follows. -/
def nextPositionsFrom (all : List Variable) (p : Nat) : List Variable → List Nat
  | [] => []
  | v :: rest =>
      (match rest.idxOf? v with
        | some d => p + 1 + d
        | none => all.idxOf v) :: nextPositionsFrom all (p + 1) rest

/-- The next position with the same entry, for each entry of a list. -/
def nextPositions (all : List Variable) : List Nat := nextPositionsFrom all 0 all

theorem nextPositionsFrom_length (all : List Variable) (p : Nat) (rest : List Variable) :
    (nextPositionsFrom all p rest).length = rest.length := by
  induction rest generalizing p with
  | nil => rfl
  | cons v rest ih => simp only [nextPositionsFrom, List.length_cons, ih]

namespace Circuit

/-- The variables of the `3 n` wire positions. -/
def wiring (c : Circuit) (n : Nat) : List Variable :=
  let columns := (Wires.columns (c.rows.map (·.wires))).map (· ++ List.replicate (n - c.size) 0)
  columns.l ++ columns.r ++ columns.o

/-- Whether all positions carry variables of the circuit. -/
def Wired (c : Circuit) (n : Nat) : Prop := ∀ v ∈ c.wiring n, v < c.varCount

instance (c : Circuit) (n : Nat) : Decidable (c.Wired n) :=
  List.decidableBAll (· < c.varCount) (c.wiring n)

/-- Whether the tables of the permutation are possible: one with a word for each position, and one
with the place of a position for each variable. -/
def Tabulable (c : Circuit) (n : Nat) : Prop :=
  TableFits (3 * n) wordWidth ∧ TableFits c.varCount.toNat placeWidth

instance (c : Circuit) (n : Nat) : Decidable (c.Tabulable n) :=
  inferInstanceAs (Decidable (TableFits (3 * n) wordWidth ∧ TableFits c.varCount.toNat placeWidth))

/-- The permutation of the wire positions, unless there are fewer rows than gates, the positions are
more than a word can count, a table is too large or a position carries a variable that the circuit
does not have. -/
def permutation (c : Circuit) (n : Nat) : Except Fault (List Nat) :=
  if n < c.size then .error (.error .badArguments)
  else if ¬FitsWord (3 * n) then .error (.misuse .wordOverflow)
  else if ¬c.Tabulable n then .error (.misuse .tableTooLarge)
  else if c.Wired n then .ok (nextPositions (c.wiring n))
  else .error (.error .badArguments)

theorem wiring_length {c : Circuit} {n : Nat} (h : c.size ≤ n) : (c.wiring n).length = 3 * n := by
  simp only [wiring, Wires.columns, Wires.map, List.length_append, List.length_map,
    List.length_replicate, rows_length]
  omega

example : nextPositions [0, 1, 0, 1, 1] = [2, 3, 0, 4, 1] := by decide

end Circuit

end PlonkKzg
