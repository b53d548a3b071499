import PlonkKzg.Circuit.Permutation
import PlonkKzg.Commitment.Scheme
import PlonkKzg.Domain.Interpolation
import PlonkKzg.Transcript.Basic

/-!
# Preprocessed circuits

What every proof for a circuit shares: the selectors and the copy constraints as polynomials, and
the commitments to them.

* `Shifters` — the factors that move the evaluation domain to two further cosets, one for the right
  wires and one for the outputs; `Shifters.ofSize` refuses a size for which they are not disjoint;
* `Shifters.label` — the element that stands for a wire position;
* `Preprocessed` — the public data of a circuit;
* `Circuit.preprocess` — the public data for a scheme that can commit to the quotient;
* `Preprocessed.preamble` — what a transcript has to hear of it before a proof.
-/

namespace PlonkKzg

/-- The factors of the columns of right and of output wires. -/
@[ext] structure Shifters where
  r : Scalar
  o : Scalar
deriving DecidableEq

namespace Shifters

def columns (s : Shifters) : Wires Scalar := ⟨1, s.r, s.o⟩

/-- The generator and its square, unless one of them lies in the subgroup of the given order. -/
def ofSize (n : Nat) : Except Error Shifters :=
  let k1 := Scalar.generator
  let k2 := k1.square
  if power k1 n = 1 ∨ power k2 n = 1 then .error .setup else .ok ⟨k1, k2⟩

/-- The label of a wire position: the element of its row, times the factor of its column. -/
def label (s : Shifters) (d : Domain) (position : Nat) : Except Fault Scalar :=
  let x := d.element (position % d.size)
  match position / d.size with
  | 0 => .ok x
  | 1 => .ok (s.r * x)
  | 2 => .ok (s.o * x)
  | _ => .error (.misuse .positionOutOfRange)

def labels (s : Shifters) (d : Domain) (positions : List Nat) : Except Fault (List Scalar) :=
  positions.mapM (s.label d)

end Shifters

/-- The public data of a circuit. -/
structure Preprocessed (G₁ G₂ : Type) where
  /-- The number of gates. -/
  size : Nat
  /-- The domain whose elements are the rows. -/
  domain : Domain
  /-- The domain of four times the size, for the quotient. -/
  quotientDomain : Domain
  selectors : Selectors Poly
  /-- The labels of the next wire positions, column by column. -/
  labels : Wires (List Scalar)
  /-- The polynomials with these values. -/
  sigmas : Wires Poly
  permutation : List Nat
  shifters : Shifters
  selectorCommitments : Selectors G₁
  sigmaCommitments : Wires G₁
  scheme : Scheme G₁ G₂

namespace Circuit

/-- The selectors of `n` rows, zero after the last gate. -/
def selectorColumns (c : Circuit) (n : Nat) : Selectors (List Scalar) :=
  (Selectors.columns (c.rows.map (·.selectors))).map (· ++ List.replicate (n - c.size) 0)

/-- The depth of the domain of the rows: its finer root has an order eight times the size. -/
def rowDepth : Nat := 3

/-- The depth of the domain of the quotient, which has the same finer root. -/
def quotientDepth : Nat := 1

variable {G₁ G₂ : Type} [SMul Scalar G₁] [Zero G₁] [Add G₁]

def preprocess (c : Circuit) (scheme : Scheme G₁ G₂) : Except Fault (Preprocessed G₁ G₂) := do
  let n := c.domainSize
  if scheme.maxDegree + 1 < cosetCount * n then throw (.error .setup)
  let domain ← Domain.ofSize n rowDepth
  let quotientDomain ← Domain.ofSize (cosetCount * n) quotientDepth
  if domain.finerGenerator ≠ quotientDomain.finerGenerator then throw (.error .setup)
  let shifters ← Shifters.ofSize n
  let selectors ← ((c.selectorColumns n).mapM domain.interpolate : Except Error (Selectors Poly))
  let selectorCommitments ← selectors.mapM scheme.commit
  let permutation ← c.permutation n
  let positions ← shifters.labels domain permutation
  let labels : Wires (List Scalar) :=
    ⟨positions.take n, (positions.drop n).take n, positions.drop (2 * n)⟩
  let sigmas ← (labels.mapM domain.interpolate : Except Error (Wires Poly))
  let sigmaCommitments ← sigmas.mapM scheme.commit
  pure { size := c.size, domain, quotientDomain, selectors, labels, sigmas, permutation, shifters,
         selectorCommitments, sigmaCommitments, scheme }

end Circuit

/-- The messages that bind a transcript to a circuit. -/
def Preprocessed.preamble {G₁ G₂ : Type} [Encoded G₁] (pd : Preprocessed G₁ G₂) : List Message :=
  [.labelled "New Domain" (utf8 "PLONK"), .word "CS size" pd.size,
    .labelled "field size" Scalar.orderBytes] ++
  (pd.selectorCommitments.toList ++ pd.sigmaCommitments.toList).map .element ++
  [.scalar pd.domain.generator, .scalar pd.shifters.r, .scalar pd.shifters.o]

end PlonkKzg
