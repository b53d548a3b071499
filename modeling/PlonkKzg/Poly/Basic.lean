import PlonkKzg.Error
import PlonkKzg.Random.Sample
import PlonkKzg.Wire.Element

/-!
# Polynomials

Polynomials over the scalars as lists of coefficients, low ones first. A list may have zeros at its
high end, or be empty, when it was read from outside; every operation here gives the trimmed form.

* `Poly` — the stored coefficients; equality is equality of the lists;
* `Poly.ofCoefs` — a polynomial without zeros at the high end, except for a single one;
* `Poly.Trimmed` — the form that `ofCoefs` gives (`ofCoefs_trimmed`);
* `+`, `-`, `Poly.scale` — coefficient by coefficient, a missing coefficient counting as zero;
* `Poly.eval` — the value at a point, by Horner's rule;
* `Poly.divByLinear` — quotient and remainder by `X - x`, from the values that Horner's rule passes
  through;
* `Poly.random` — uniform coefficients.
-/

namespace PlonkKzg

/-- A polynomial by its coefficients, low ones first. -/
@[ext] structure Poly where
  coefs : List Scalar
deriving DecidableEq

namespace Poly

/-- The list without zeros at its end. -/
def dropZeros : List Scalar → List Scalar
  | [] => []
  | c :: cs =>
    match dropZeros cs with
    | [] => if c = 0 then [] else [c]
    | d :: ds => c :: d :: ds

def ofCoefs (cs : List Scalar) : Poly :=
  match dropZeros cs with
  | [] => ⟨[0]⟩
  | d :: ds => ⟨d :: ds⟩

/-- At least one coefficient is stored, and the highest is not zero unless it is the only one. -/
def Trimmed (p : Poly) : Prop :=
  p.coefs ≠ [] ∧ (p.coefs.length = 1 ∨ p.coefs.getLast? ≠ some 0)

theorem getLast?_dropZeros (cs : List Scalar) : (dropZeros cs).getLast? ≠ some 0 := by
  induction cs with
  | nil => simp [dropZeros]
  | cons c cs ih =>
      unfold dropZeros
      split
      · split
        · simp
        · rename_i h
          simpa using h
      · rename_i d ds h
        rw [h] at ih
        simpa [List.getLast?_cons_cons] using ih

theorem ofCoefs_trimmed (cs : List Scalar) : (ofCoefs cs).Trimmed := by
  have h := getLast?_dropZeros cs
  unfold ofCoefs
  split
  · exact ⟨by simp, .inl rfl⟩
  · rename_i d ds hd
    rw [hd] at h
    exact ⟨by simp, .inr h⟩

instance : Zero Poly := ⟨ofCoefs [0]⟩

instance : One Poly := ⟨ofCoefs [1]⟩

/-- The coefficient of a power, zero beyond the stored ones. -/
def coef (p : Poly) (k : Nat) : Scalar := p.coefs.getD k 0

/-- The highest power with a stored coefficient. -/
def degree (p : Poly) : Nat := p.coefs.length - 1

/-- Whether at most one coefficient is stored and it is zero. -/
def isZero (p : Poly) : Bool :=
  match p.coefs with
  | [] => true
  | [c] => c = 0
  | _ => false

def evalCoefs (cs : List Scalar) (x : Scalar) : Scalar :=
  cs.foldr (fun c acc => acc * x + c) 0

def eval (p : Poly) (x : Scalar) : Scalar := evalCoefs p.coefs x

theorem evalCoefs_cons (c : Scalar) (cs : List Scalar) (x : Scalar) :
    evalCoefs (c :: cs) x = evalCoefs cs x * x + c := rfl

/-- Combines two lists to the end of the longer one. -/
def combine (f : Scalar → Scalar → Scalar) : List Scalar → List Scalar → List Scalar
  | [], [] => []
  | a :: as, [] => f a 0 :: combine f as []
  | [], b :: bs => f 0 b :: combine f [] bs
  | a :: as, b :: bs => f a b :: combine f as bs

theorem combine_length (f : Scalar → Scalar → Scalar) (as bs : List Scalar) :
    (combine f as bs).length = max as.length bs.length := by
  fun_induction combine f as bs with
  | case1 => rfl
  | case2 a as ih => simp only [List.length_cons, ih, List.length_nil]; omega
  | case3 b bs ih => simp only [List.length_cons, ih, List.length_nil]; omega
  | case4 a as b bs ih => simp only [List.length_cons, ih]; omega

protected def add (p q : Poly) : Poly := ofCoefs (combine (· + ·) p.coefs q.coefs)

instance : Add Poly := ⟨Poly.add⟩

protected def sub (p q : Poly) : Poly := ofCoefs (combine (· - ·) p.coefs q.coefs)

instance : Sub Poly := ⟨Poly.sub⟩

def scale (k : Scalar) (p : Poly) : Poly := ofCoefs (p.coefs.map (· * k))

/-- The values at `x` of a list of coefficients and of all its ends that are not empty. -/
def endValues (x : Scalar) : List Scalar → List Scalar
  | [] => []
  | c :: cs =>
    match endValues x cs with
    | [] => [c]
    | v :: vs => (c + v * x) :: v :: vs

theorem endValues_length (x : Scalar) (cs : List Scalar) :
    (endValues x cs).length = cs.length := by
  induction cs with
  | nil => rfl
  | cons c cs ih =>
      unfold endValues
      split
      · rename_i h
        rw [h] at ih
        simp only [List.length_nil, List.length_cons] at ih ⊢
        omega
      · rename_i v vs h
        rw [h] at ih
        simp only [List.length_cons] at ih ⊢
        omega

/-- The quotient and the remainder by `X - x`. The value of the whole list is the remainder, and
the values of its proper ends are the coefficients of the quotient. A polynomial without stored
coefficients has no quotient. -/
def divByLinear (p : Poly) (x : Scalar) : Except Fault (Poly × Scalar) :=
  match endValues x p.coefs with
  | [] => .error (.misuse .noCoefficients)
  | v :: vs => .ok (ofCoefs vs, v)

theorem divByLinear_isOk {p : Poly} (h : p.coefs ≠ []) (x : Scalar) :
    ∃ q v, p.divByLinear x = .ok (q, v) := by
  unfold divByLinear
  split
  · rename_i hv
    have hl := endValues_length x p.coefs
    rw [hv] at hl
    exact absurd (List.length_eq_zero_iff.1 hl.symm) h
  · exact ⟨_, _, rfl⟩

def randomScalars : Nat → Draw (List Scalar)
  | 0 => pure []
  | k + 1 => do
      let c ← Scalar.random
      let cs ← randomScalars k
      pure (c :: cs)

/-- A polynomial with `degree + 1` uniform coefficients, trimmed, unless there are too many for a
table. -/
def random (degree : Nat) : Draw (Except Fault Poly) :=
  if TableFits (degree + 1) scalarWidth then do
    let cs ← randomScalars (degree + 1)
    pure (.ok (ofCoefs cs))
  else pure (.error (.misuse .tableTooLarge))

/-- The encoding of polynomials. Reading does not trim. -/
def codec : Codec Poly :=
  (Fields.cons "coefs" (Encoded.codec Scalar).list .none).record.map (fun p => ⟨p.1⟩)
    (fun p => (p.coefs, ()))

def valuesCodec : Codec (List Scalar) :=
  (Fields.cons "values" (Encoded.codec Scalar).list .none).record.map (fun p => p.1)
    (fun vs => (vs, ()))

example : (ofCoefs [1, 0, 1, 0, 0]).coefs = [1, 0, 1] := by decide

end Poly

end PlonkKzg
