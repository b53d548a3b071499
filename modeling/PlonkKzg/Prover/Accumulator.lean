import PlonkKzg.Prover.Preprocessed

/-!
# The permutation accumulator

Copy constraints hold if the product of all wire values plus their own labels is the product of all
wire values plus the labels of the next positions, each shifted by a challenge. The accumulator is
the running quotient of the two products, row after row.

* `rowFactor` — the product of one row;
* `Preprocessed.factors` — the factors of all rows, with own labels and with next labels;
* `runningProducts` — the products of the first factors of a list;
* `Preprocessed.accumulator` — the running quotients, the first being one;
* `Preprocessed.closes` — whether the last row brings the quotient back to one;
* `rotated` — the same values, each moved one row up.
-/

namespace PlonkKzg

/-- The product over the wires of value, label and shift. -/
def rowFactor (gamma : Scalar) (values labels : Wires Scalar) : Scalar :=
  (values.l + gamma + labels.l) * (values.r + gamma + labels.r) * (values.o + gamma + labels.o)

/-- The labels of a row whose element is `x`. -/
def Shifters.rowLabels (s : Shifters) (x : Scalar) : Wires Scalar := s.columns.map (· * x)

/-- The factors of the rows: with the labels of the positions themselves, and with those of the next
positions. -/
structure Factors where
  own : List Scalar
  next : List Scalar

/-- The products of the first factors, beginning with none of them. -/
def runningProducts (start : Scalar) : List Scalar → List Scalar
  | [] => []
  | f :: fs => start :: runningProducts (start * f) fs

@[simp] theorem runningProducts_length (start : Scalar) (fs : List Scalar) :
    (runningProducts start fs).length = fs.length := by
  induction fs generalizing start with
  | nil => rfl
  | cons f fs ih => simp only [runningProducts, List.length_cons, ih]

/-- All items one place up, the first one at the end. -/
def rotated {α : Type} : List α → List α
  | [] => []
  | a :: as => as ++ [a]

@[simp] theorem rotated_length {α : Type} (as : List α) : (rotated as).length = as.length := by
  cases as with
  | nil => rfl
  | cons a as => simp [rotated]

namespace Preprocessed

variable {G₁ G₂ : Type}

/-- The factors of all rows for given wire columns. All columns need a value for each row. -/
def factors (pd : Preprocessed G₁ G₂) (wires : Wires (List Scalar)) (gamma : Scalar) :
    Except Error Factors :=
  if ∀ column ∈ wires.toList ++ pd.labels.toList, column.length = pd.domain.size then
    let own := pd.domain.elements.map pd.shifters.rowLabels
    .ok ⟨List.zipWith (rowFactor gamma) wires.rows own,
      List.zipWith (rowFactor gamma) wires.rows pd.labels.rows⟩
  else .error .badArguments

/-- The running quotients of the factors. -/
def accumulator (pd : Preprocessed G₁ G₂) (wires : Wires (List Scalar)) (gamma : Scalar) :
    Except Error (List Scalar) := do
  let f ← pd.factors wires gamma
  match Scalar.invertAll f.next with
  | .ok inverses => pure (runningProducts 1 (List.zipWith (· * ·) f.own inverses))
  | .error _ => throw .divisionByZero

/-- Whether the quotient at the last row, times the quotient of that row, is one. -/
def closes (pd : Preprocessed G₁ G₂) (wires : Wires (List Scalar)) (z : List Scalar)
    (gamma : Scalar) : Except Error Bool := do
  let f ← pd.factors wires gamma
  match z[pd.domain.size - 1]?, f.own.getLast?, f.next.getLast? with
  | some last, some own, some next => pure (last * own = next)
  | _, _, _ => throw .badArguments

end Preprocessed

example : rotated [1, 2, 3] = [2, 3, 1] := by decide

end PlonkKzg
