import PlonkKzg.Commitment.Scheme
import PlonkKzg.Domain.Basic

/-!
# Openings

Claims about the values of committed polynomials, with their witnesses.

* `Opening` — the value of one polynomial at a point;
* `BatchOpening` — the values of several polynomials at one point, with one witness for all;
* `weighted` — the sum of a list by the powers of a scalar, which folds polynomials, their values
  and their commitments alike;
* `Scheme.openAt`, `Scheme.verifyOpening` — making and checking an opening;
* `Scheme.batchOpenAt`, `Scheme.verifyBatch` — the same for several polynomials.
-/

namespace PlonkKzg

/-- The value of a polynomial at a point, and the witness. -/
@[ext] structure Opening (G : Type) where
  point : Scalar
  value : Scalar
  witness : G
deriving DecidableEq

/-- The values of polynomials at one point, and the witness of their weighted sum. -/
@[ext] structure BatchOpening (G : Type) where
  point : Scalar
  values : List Scalar
  witness : G
deriving DecidableEq

def Opening.codec {G : Type} [Encoded G] : Codec (Opening G) :=
  (Fields.cons "point" (Encoded.codec Scalar) <| .cons "claimed_value" (Encoded.codec Scalar) <|
    .cons "witness" (Encoded.codec G) .none).record.map
    (fun (point, value, witness, _) => ⟨point, value, witness⟩)
    (fun o => (o.point, o.value, o.witness, ()))

def BatchOpening.codec {G : Type} [Encoded G] : Codec (BatchOpening G) :=
  (Fields.cons "point" (Encoded.codec Scalar) <|
    .cons "claimed_values" (Encoded.codec Scalar).list <|
    .cons "witness" (Encoded.codec G) .none).record.map
    (fun (point, values, witness, _) => ⟨point, values, witness⟩)
    (fun o => (o.point, o.values, o.witness, ()))

/-- The sum of items, the first times one, the second times `v`, the third times `v * v`, … -/
def weighted {α : Type} [Zero α] [Add α] (times : Scalar → α → α) (v : Scalar) (as : List α) : α :=
  (List.zipWith times (geometric 1 v as.length) as).sum

namespace Scheme

variable {G₁ G₂ : Type} [SMul Scalar G₁] [Zero G₁] [Add G₁]

def openAt (s : Scheme G₁ G₂) (x : Scalar) (p : Poly) : Except Fault (Opening G₁) := do
  let witness ← s.prove p x s.maxDegree
  pure ⟨x, p.eval x, witness⟩

/-- The opening of polynomials at one point, whose witness is that of their sum weighted by the
powers of `v`. At least one polynomial has to be given. -/
def batchOpenAt (s : Scheme G₁ G₂) (x v : Scalar) (ps : List Poly) :
    Except Fault (BatchOpening G₁) := do
  if ps = [] then throw (.error .badArguments)
  let witness ← s.prove (weighted Poly.scale v ps) x s.maxDegree
  pure ⟨x, ps.map (·.eval x), witness⟩

variable [Sub G₁] [Neg G₁] {Gₜ : Type} [Pairing G₁ G₂ Gₜ] [Zero Gₜ] [Add Gₜ] [DecidableEq Gₜ]

def verifyOpening (s : Scheme G₁ G₂) (C : G₁) (o : Opening G₁) : Except Error Unit :=
  s.verify C o.point o.value o.witness

/-- Whether an opening belongs to commitments, at least one and as many as there are values. -/
def verifyBatch (s : Scheme G₁ G₂) (Cs : List G₁) (v : Scalar) (o : BatchOpening G₁) :
    Except Error Unit :=
  if Cs = [] ∨ Cs.length ≠ o.values.length then .error .badArguments
  else s.verify (weighted (· • ·) v Cs) o.point (weighted (· * ·) v o.values) o.witness

end Scheme

example : weighted (· * ·) (1 + 1 : Scalar) [1, 1, 1] = .ofNat 7 := by decide

end PlonkKzg
