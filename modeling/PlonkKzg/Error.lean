/-!
# Errors and misuse

The causes for which an operation of the library gives no value, and the text of each.

* `AlgebraError` — what can go wrong with field elements, group elements and their encodings;
* `Error` — what can go wrong in the proof system, an `AlgebraError` among it;
* `Misuse` — a precondition that the caller broke; no text belongs to it. The library is that of a
  checked build, which asserts the lengths of lists that are read side by side, and in which a count
  that no machine word can hold is not cut down to one that fits;
* `Fault` — an `Error` or a `Misuse`, for the operations that have preconditions.

An operation that returns `Except Error` has no precondition: whatever it is given, it answers
with a value or with one of the listed causes.
-/

namespace PlonkKzg

/-- Causes of failure in the algebra. -/
inductive AlgebraError where
  | undecodable
  | unencodable
  | indexOutOfBounds
  | badParameter
  | notInvertible
deriving DecidableEq, Repr

def AlgebraError.message : AlgebraError → String
  | .undecodable => "Could not deserialize object"
  | .unencodable => "Could not serialize object"
  | .indexOutOfBounds => "Index out of bounds"
  | .badParameter => "Unexpected parameter for method or function"
  | .notInvertible => "Group Element not invertible"

/-- Causes of failure in the proof system. -/
inductive Error where
  /-- The algebra failed. -/
  | algebra (cause : AlgebraError)
  /-- The field has no subgroup of the requested size. -/
  | noSubgroup (size : Nat)
  /-- The assignment does not satisfy the constraint system. -/
  | invalidWitness
  /-- A commitment could not be made, or an opening was refused. -/
  | commitment
  /-- The parameters do not fit the circuit. -/
  | setup
  /-- A value that has to be inverted is zero. -/
  | divisionByZero
  /-- The arguments do not fit together. -/
  | badArguments
  /-- The polynomial has more coefficients than the scheme can commit to. -/
  | degreeTooHigh
deriving DecidableEq, Repr

def Error.message : Error → String
  | .algebra cause => "Algebra: " ++ cause.message
  | .noSubgroup size => "Group of size " ++ toString size ++ " not found."
  | .invalidWitness => "Proof error invalid witness."
  | .commitment => "Commitment error."
  | .setup => "Setup error."
  | .divisionByZero => "Division by zero."
  | .badArguments => "Function params error"
  | .degreeTooHigh => "The degree of the polynomial is higher than the maximum degree supported."

/-- Preconditions that a caller can break. -/
inductive Misuse where
  /-- Two lists that are read side by side have different lengths. -/
  | lengthMismatch
  /-- A polynomial without a single stored coefficient was divided. -/
  | noCoefficients
  /-- A wire position lies outside the three columns. -/
  | positionOutOfRange
  /-- An assignment without a first value was checked. -/
  | emptyAssignment
  /-- A count does not fit into a machine word. -/
  | wordOverflow
  /-- Every challenge that was drawn lies in the evaluation subgroup. -/
  | noChallenge
  /-- A table would have more bytes than memory has places for. -/
  | tableTooLarge
deriving DecidableEq, Repr

/-- Why an operation with preconditions gave no value. -/
inductive Fault where
  | error (cause : Error)
  | misuse (broken : Misuse)
deriving DecidableEq, Repr

/-- An operation without preconditions may be used among operations that have some. -/
instance : MonadLift (Except Error) (Except Fault) where
  monadLift x := x.mapError .error

/-- A failure of the algebra is one of the proof system. -/
instance : MonadLift (Except AlgebraError) (Except Error) where
  monadLift x := x.mapError .algebra

example : (Error.noSubgroup 6).message = "Group of size 6 not found." := by decide

end PlonkKzg
