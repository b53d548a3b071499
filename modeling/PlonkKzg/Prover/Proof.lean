import PlonkKzg.Commitment.Opening
import PlonkKzg.Prover.Challenges
import PlonkKzg.Prover.Quotient

/-!
# Proofs

The prover. It commits to the wires, the accumulator and the quotient, asks for a challenge after
each, and opens all of them at the point that the third challenge gives.

* `Committed` — one item for each of the five polynomials that a proof commits to;
* `Proof` — commitments, values and openings;
* `Preprocessed.wireRound`, `Preprocessed.accumulatorRound`, `Preprocessed.quotientPoly` — the
  polynomials of the three rounds;
* `Preprocessed.proveFrom` — a proof with the challenges of a source;
* `Preprocessed.prove` — a proof with challenges from a transcript, which hears of the circuit
  first;
* `Preprocessed.proveWith` — a proof with given challenges.
-/

namespace PlonkKzg

/-- One item for each of the polynomials that are committed to. -/
@[ext] structure Committed (α : Type) where
  wires : Wires α
  quotient : α
  accumulator : α
deriving DecidableEq

namespace Committed

variable {α β : Type}

def toList (c : Committed α) : List α := c.wires.toList ++ [c.quotient, c.accumulator]

def map (f : α → β) (c : Committed α) : Committed β :=
  ⟨c.wires.map f, f c.quotient, f c.accumulator⟩

def codec (c : Codec α) : Codec (Committed α) :=
  (Fields.cons "l" c <| .cons "r" c <| .cons "o" c <| .cons "h" c <| .cons "z" c .none).tuple.map
    (fun (l, r, o, h, z, _) => ⟨⟨l, r, o⟩, h, z⟩)
    (fun p => (p.wires.l, p.wires.r, p.wires.o, p.quotient, p.accumulator, ()))

end Committed

/-- A proof that a circuit is satisfied. -/
@[ext] structure Proof (G : Type) where
  commitments : Committed G
  /-- The values at the third challenge. -/
  values : Committed Scalar
  /-- The value of the accumulator one row on. -/
  zNext : Scalar
  /-- The opening of all five at the third challenge. -/
  opening : BatchOpening G
  /-- The opening of the accumulator one row on. -/
  openingNext : Opening G
deriving DecidableEq

def Proof.codec {G : Type} [Encoded G] : Codec (Proof G) :=
  (Fields.cons "commitments" (Committed.codec (Encoded.codec G)) <|
    .cons "lrohz" (Committed.codec (Encoded.codec Scalar)) <|
    .cons "z_shift" (Encoded.codec Scalar) <|
    .cons "batch_openings" BatchOpening.codec <|
    .cons "opening_z_shift" Opening.codec .none).record.map
    (fun (commitments, values, zNext, opening, openingNext, _) =>
      ⟨commitments, values, zNext, opening, openingNext⟩)
    (fun p => (p.commitments, p.values, p.zNext, p.opening, p.openingNext, ()))

/-- The wires after the first round: their values, their polynomials, the commitments. -/
structure WireRound (G : Type) where
  columns : Wires (List Scalar)
  polys : Wires Poly
  commitments : Wires G

/-- The accumulator after the second round: its polynomial, the one of the accumulator one row on,
the commitment. -/
structure AccumulatorRound (G : Type) where
  poly : Poly
  polyNext : Poly
  commitment : G

namespace Preprocessed

variable {G₁ G₂ : Type} [SMul Scalar G₁] [Zero G₁] [Add G₁]

/-- A commitment. Whatever error the scheme has, it is the commitment that could not be made. -/
def commit (pd : Preprocessed G₁ G₂) (p : Poly) : Except Fault G₁ :=
  match pd.scheme.commit p with
  | .error (.error _) => .error (.error .commitment)
  | answer => answer

/-- Refuses a circuit of another size, domains that do not belong together, and a scheme that cannot
commit to the quotient. -/
def requireFit (pd : Preprocessed G₁ G₂) (c : Circuit) : Except Error Unit :=
  let n := pd.domain.size
  if c.domainSize ≠ n ∨ pd.quotientDomain.size ≠ cosetCount * n then .error .badArguments
  else if pd.scheme.maxDegree + 1 < cosetCount * n then .error .setup
  else .ok ()

/-- The wires of an assignment. -/
def wireRound (pd : Preprocessed G₁ G₂) (c : Circuit) (w : List Scalar) :
    Except Fault (WireRound G₁) := do
  let columns ← c.wireColumns w pd.domain.size
  let polys ← (columns.mapM pd.domain.interpolate : Except Error (Wires Poly))
  let commitments ← polys.mapM pd.commit
  pure ⟨columns, polys, commitments⟩

/-- The accumulator of wire columns. -/
def accumulatorRound (pd : Preprocessed G₁ G₂) (columns : Wires (List Scalar)) (gamma : Scalar) :
    Except Fault (AccumulatorRound G₁) := do
  let z ← pd.accumulator columns gamma
  let poly ← pd.domain.interpolate z
  let polyNext ← pd.domain.interpolate (rotated z)
  let commitment ← pd.commit poly
  pure ⟨poly, polyNext, commitment⟩

/-- The quotient of the combined equations, from the values of all polynomials on the cosets. -/
def quotientPoly (pd : Preprocessed G₁ G₂) (wires : Wires Poly) (z zNext : Poly)
    (gamma alpha : Scalar) : Except Error Poly := do
  let d := pd.domain
  let selectors ← pd.selectors.mapM d.evaluateCosets
  let sigma ← pd.sigmas.mapM d.evaluateCosets
  let wires ← wires.mapM d.evaluateCosets
  let z ← d.evaluateCosets z
  let zNext ← d.evaluateCosets zNext
  let gates ← gateValues selectors wires
  let ordering ← orderingValues pd.shifters gamma wires ⟨d.cosetPoints, z, zNext, sigma⟩
  quotient d pd.quotientDomain gates ordering alpha

variable [Encoded G₁]

/-- A proof with the challenges of a source. -/
def proveFrom {σ : Type} (source : ChallengeSource σ) (pd : Preprocessed G₁ G₂) (c : Circuit)
    (w : List Scalar) : StateT σ (Except Fault) (Proof G₁) := do
  (pd.requireFit c : Except Fault Unit)
  let wires ← pd.wireRound c w
  let gamma ← source .gamma (wires.commitments.toList.map .element)
  let accumulator ← pd.accumulatorRound wires.columns gamma
  let alpha ← source .alpha [.element accumulator.commitment]
  let h ← (pd.quotientPoly wires.polys accumulator.poly accumulator.polyNext gamma alpha :
    Except Fault Poly)
  let hCommitment ← pd.commit h
  let zeta ← source .zeta [.element hCommitment]
  let polys : Committed Poly := ⟨wires.polys, h, accumulator.poly⟩
  let values := polys.map (·.eval zeta)
  let next := zeta * pd.domain.generator
  let zNext := accumulator.poly.eval next
  let v ← source .bundle ((values.toList ++ [zNext]).map .scalar)
  let opening ← pd.scheme.batchOpenAt zeta v polys.toList
  let openingNext ← pd.scheme.openAt next accumulator.poly
  pure { commitments := ⟨wires.commitments, hCommitment, accumulator.commitment⟩
         values, zNext, opening, openingNext }

/-- A proof whose challenges are drawn from a transcript, and the transcript after it. -/
def prove (pd : Preprocessed G₁ G₂) (c : Circuit) (w : List Scalar) (t : Transcript) :
    Except Fault (Proof G₁ × Transcript) :=
  (pd.proveFrom (Transcript.source pd.domain.size) c w).run (t.absorbAll pd.preamble)

/-- A proof with given challenges. -/
def proveWith (pd : Preprocessed G₁ G₂) (c : Circuit) (w : List Scalar) (challenges : Challenges) :
    Except Fault (Proof G₁) :=
  (pd.proveFrom challenges.source c w).run' ()

end Preprocessed

end PlonkKzg
