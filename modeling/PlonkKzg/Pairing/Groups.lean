import PlonkKzg.Error
import PlonkKzg.Field.Scalar
import PlonkKzg.Pairing.Ate

/-!
# Groups with a pairing

What a commitment scheme uses of its groups, apart from their operations.

* `Generator G` — a base point;
* `Pairing G₁ G₂ Gₜ` — a map of two groups into a third;
* `combination` — the sum of multiples of points, up to the end of the shorter list;
* `multiExp` — the same for lists of one length, any other being a misuse in a build that asserts
  lengths, as this library is (a build without assertions answers zero there);
* `pairingSum`, `pairingProduct` — the sum of the pairings of two lists, likewise.
-/

namespace PlonkKzg

/-- A group with a base point. -/
class Generator (G : Type) where
  generator : G

/-- A map of two groups into a third. -/
class Pairing (G₁ G₂ : Type) (Gₜ : outParam Type) where
  pair : G₁ → G₂ → Gₜ

instance : Generator G1 := ⟨G1.generator⟩

instance : Generator G2 := ⟨G2.generator⟩

instance : Generator Gt := ⟨Gt.generator⟩

instance : Pairing G1 G2 Gt := ⟨Ate.pair⟩

section

variable {G : Type} [Zero G] [Add G] [SMul Scalar G]

/-- The sum of the multiples of points by scalars, up to the end of the shorter list. -/
def combination (ks : List Scalar) (ps : List G) : G :=
  (List.zipWith (· • ·) ks ps).sum

/-- The sum of the multiples of points by as many scalars. That they are as many is a debug
assertion. -/
def multiExp (ks : List Scalar) (ps : List G) : Except Fault G :=
  if ks.length = ps.length then .ok (combination ks ps) else .error (.misuse .lengthMismatch)

theorem multiExp_eq_ok {ks : List Scalar} {ps : List G} (h : ks.length = ps.length) :
    multiExp ks ps = .ok (combination ks ps) := if_pos h

end

section

variable {G₁ G₂ Gₜ : Type} [Pairing G₁ G₂ Gₜ] [Zero Gₜ] [Add Gₜ]

/-- The sum of the pairings, up to the end of the shorter list. -/
def pairingSum (ps : List G₁) (qs : List G₂) : Gₜ :=
  (List.zipWith Pairing.pair ps qs).sum

def pairingProduct (ps : List G₁) (qs : List G₂) : Except Fault Gₜ :=
  if ps.length = qs.length then .ok (pairingSum ps qs) else .error (.misuse .lengthMismatch)

end

end PlonkKzg
