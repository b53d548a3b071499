import PlonkKzg.Pairing.Groups
import PlonkKzg.Poly.Basic

/-!
# Polynomial commitments

A polynomial is committed to by its value at a secret point, in the exponent of a group. A pairing
shows that a committed polynomial has a claimed value at a claimed point.

* `Scheme` — the multiples of the base point of the first group by the powers of the secret, and
  those of the base point of the second group by one and by the secret;
* `Scheme.ofSecret`, `Scheme.setup` — the scheme of a secret, and of a random one;
* `Scheme.commit` — the commitment to a polynomial;
* `Scheme.prove` — the commitment to the quotient by `X - x`, which shows the value at `x`;
* `Scheme.verify` — whether a commitment and such a witness belong to a value;
* `Scheme.shrink` — the parameters that `verify` needs.

The groups are parameters. Nothing here needs more of them than their operations.
-/

namespace PlonkKzg

/-- The public parameters in both groups. -/
@[ext] structure Scheme (G₁ G₂ : Type) where
  g1 : List G₁
  g2 : List G₂
deriving DecidableEq

namespace Scheme

/-- A point, its multiple by `s`, the multiple of that by `s`, and so on, `n` of them. -/
def powers {G : Type} [SMul Scalar G] (s : Scalar) (P : G) : Nat → List G
  | 0 => []
  | n + 1 => P :: powers s (s • P) n

@[simp] theorem powers_length {G : Type} [SMul Scalar G] (s : Scalar) (P : G) (n : Nat) :
    (powers s P n).length = n := by
  induction n generalizing P with
  | zero => rfl
  | succ n ih => simp only [powers, List.length_cons, ih]

variable {G₁ G₂ : Type}

def maxDegree (s : Scheme G₁ G₂) : Nat := s.g1.length - 1

/-- The parameters without those that only commitments need. -/
def shrink (s : Scheme G₁ G₂) : Scheme G₁ G₂ := ⟨s.g1.take 1, s.g2.take 2⟩

theorem shrink_shrink (s : Scheme G₁ G₂) : s.shrink.shrink = s.shrink := by
  simp [shrink, List.take_take]

def codec [Encoded G₁] [Encoded G₂] : Codec (Scheme G₁ G₂) :=
  (Fields.cons "public_parameter_group_1" (Encoded.codec G₁).list <|
    .cons "public_parameter_group_2" (Encoded.codec G₂).list .none).record.map
    (fun p => ⟨p.1, p.2.1⟩) (fun s => (s.g1, s.g2, ()))

section

variable [SMul Scalar G₁] [SMul Scalar G₂] [Generator G₁] [Generator G₂]

def ofSecret (maxDegree : Nat) (s : Scalar) : Scheme G₁ G₂ :=
  ⟨powers s Generator.generator (maxDegree + 1), powers s Generator.generator 2⟩

theorem maxDegree_ofSecret (d : Nat) (s : Scalar) :
    (ofSecret d s : Scheme G₁ G₂).maxDegree = d := by
  simp [maxDegree, ofSecret]

/-- The scheme of a random secret, unless there are too many points for a table. -/
def setup (maxDegree : Nat) : Draw (Except Fault (Scheme G₁ G₂)) := do
  let s ← Scalar.random
  pure do
    requireTable (maxDegree + 1) pointWidth
    pure (ofSecret maxDegree s)

end

section

variable [SMul Scalar G₁] [Zero G₁] [Add G₁]

/-- The sum of the parameters, multiplied by the coefficients. A polynomial with more coefficients
than there are parameters is refused. One without any stored coefficient leaves a parameter without
a coefficient, against the debug assertion of `multiExp`. -/
def commit (s : Scheme G₁ G₂) (p : Poly) : Except Fault G₁ :=
  if s.g1.length < p.degree + 1 then .error (.error .degreeTooHigh)
  else multiExp p.coefs (s.g1.take (p.degree + 1))

/-- The witness for the value at `x` of a polynomial whose degree is bounded. -/
def prove (s : Scheme G₁ G₂) (p : Poly) (x : Scalar) (bound : Nat) : Except Fault G₁ := do
  if bound < p.degree then throw (.error .degreeTooHigh)
  let (quotient, _) ← p.divByLinear x
  s.commit quotient

end

variable [SMul Scalar G₁] [Add G₁] [Sub G₁] [Neg G₁]
variable {Gₜ : Type} [Pairing G₁ G₂ Gₜ] [Zero Gₜ] [Add Gₜ] [DecidableEq Gₜ]

/-- Whether `W` is a witness that the polynomial behind `C` has the value `y` at `x`. With the base
points `g` and `h` and the secret `s`, this is `⟨C - y g + x W, h⟩ = ⟨W, s h⟩`. -/
def verify (scheme : Scheme G₁ G₂) (C : G₁) (x y : Scalar) (W : G₁) : Except Error Unit :=
  match scheme.g1, scheme.g2 with
  | g :: _, h :: sh :: _ =>
      if (pairingSum [C - y • g + x • W, -W] [h, sh] : Gₜ) = 0 then .ok ()
      else .error .commitment
  | _, _ => .error .commitment

theorem verify_shrink (scheme : Scheme G₁ G₂) (C : G₁) (x y : Scalar) (W : G₁) :
    scheme.shrink.verify C x y W = scheme.verify C x y W := by
  obtain ⟨g1, g2⟩ := scheme
  rcases g1 with _ | ⟨g, gs⟩
  · rfl
  · rcases g2 with _ | ⟨h, _ | ⟨sh, hs⟩⟩ <;> rfl

end Scheme

end PlonkKzg
