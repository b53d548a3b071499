import PlonkKzg.Transcript.Basic

/-!
# Challenges

The four random scalars of a proof, and where they come from.

* `Challenge` — which of them;
* `Challenges` — values for all four; `Challenges.fixed` are constants;
* `ChallengeSource` — answers a request for a challenge after the messages since the last one;
* `Challenges.source` — answers with given values, whatever the messages are;
* `Transcript.drawOutside`, `Transcript.source` — absorbs the messages, and draws until the scalar
  lies outside the subgroup of a given order.
-/

namespace PlonkKzg

/-- The challenges of a proof in the order in which they are drawn. -/
inductive Challenge where
  /-- Drawn after the wire polynomials; it shifts the factors of the accumulator. -/
  | gamma
  /-- Drawn after the accumulator; it separates the gates from the copy constraints. -/
  | alpha
  /-- Drawn after the quotient; the point of the openings. -/
  | zeta
  /-- Drawn after the values at that point; it bundles the openings. -/
  | bundle
deriving DecidableEq, Repr

/-- The label under which a challenge is drawn from a transcript. -/
def Challenge.label : Challenge → List UInt8
  | .gamma => utf8 "gamma"
  | .alpha => utf8 "alpha"
  | .zeta => utf8 "zeta"
  | .bundle => utf8 "v_bundle"

@[ext] structure Challenges where
  zeta : Scalar
  bundle : Scalar
  gamma : Scalar
  alpha : Scalar
deriving DecidableEq

namespace Challenges

def get (cs : Challenges) : Challenge → Scalar
  | .gamma => cs.gamma
  | .alpha => cs.alpha
  | .zeta => cs.zeta
  | .bundle => cs.bundle

/-- Constants for reproducible proofs. -/
def fixed : Challenges where
  zeta := .ofNat 2938092839238274283
  bundle := .ofNat 987545678
  gamma := .ofNat 8278263826
  alpha := .ofNat 25678323434

def codec : Codec Challenges :=
  let s := Encoded.codec Scalar
  (Fields.cons "zeta" s <| .cons "v_bundle" s <| .cons "gamma" s <|
    .cons "alpha" s .none).record.map
    (fun (zeta, bundle, gamma, alpha, _) => ⟨zeta, bundle, gamma, alpha⟩)
    (fun cs => (cs.zeta, cs.bundle, cs.gamma, cs.alpha, ()))

end Challenges

/-- How a prover gets its challenges: with the messages since the last request, and with a state
that the source may remember them in. -/
abbrev ChallengeSource (σ : Type) : Type :=
  Challenge → List Message → StateT σ (Except Fault) Scalar

/-- The source that hands out given values. -/
def Challenges.source (cs : Challenges) : ChallengeSource Unit := fun c _ => pure (cs.get c)

namespace Transcript

/-- The first draw that has no power of one at a given exponent. Nothing bounds the number of draws,
and there is no answer if all of them have that power. -/
def drawOutside (order : Nat) (label : List UInt8) (t : Transcript) :
    Option (Scalar × Transcript) :=
  let (c, t) := t.challenge label
  if power c order = 1 then t |>.drawOutside order label else some (c, t)
partial_fixpoint

/-- The source that draws from the transcript, outside the subgroup of a given order. -/
def source (order : Nat) : ChallengeSource Transcript := fun c messages t =>
  match drawOutside order c.label (t.absorbAll messages) with
  | some answer => .ok answer
  | none => .error (.misuse .noChallenge)

end Transcript

end PlonkKzg
