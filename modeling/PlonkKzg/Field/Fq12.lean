import PlonkKzg.Field.Fq2

/-!
# The extension of degree twelve

The field in which pairings have their values, in two steps over `Fq2`:

* `Fq6` — triples `c0 + c1 v + c2 v²` with `v³ = 9 + u`;
* `Fq12` — pairs `c0 + c1 w` with `w² = v`, so that `w⁶ = 9 + u`;
* `Fq12.conj` — `c0 - c1 w`, the power to `p ^ 6`;
* `Fq12.frobeniusSquare` — the power to `p ^ 2`;
* `Fq12.toBytes`, `Fq12.ofBytes?` — the twelve coefficients in order, low ones first.
-/

namespace PlonkKzg

/-- The element `c0 + c1 v + c2 v²`. -/
@[ext] structure Fq6 where
  c0 : Fq2
  c1 : Fq2
  c2 : Fq2
deriving DecidableEq

namespace Fq6

instance : Zero Fq6 := ⟨⟨0, 0, 0⟩⟩

instance : One Fq6 := ⟨⟨1, 0, 0⟩⟩

protected def add (a b : Fq6) : Fq6 := ⟨a.c0 + b.c0, a.c1 + b.c1, a.c2 + b.c2⟩

instance : Add Fq6 := ⟨Fq6.add⟩

protected def sub (a b : Fq6) : Fq6 := ⟨a.c0 - b.c0, a.c1 - b.c1, a.c2 - b.c2⟩

instance : Sub Fq6 := ⟨Fq6.sub⟩

protected def neg (a : Fq6) : Fq6 := ⟨-a.c0, -a.c1, -a.c2⟩

instance : Neg Fq6 := ⟨Fq6.neg⟩

/-- The product by six products below, with `v³` replaced by `9 + u`. -/
protected def mul (a b : Fq6) : Fq6 :=
  let v0 := a.c0 * b.c0
  let v1 := a.c1 * b.c1
  let v2 := a.c2 * b.c2
  ⟨v0 + ((a.c1 + a.c2) * (b.c1 + b.c2) - v1 - v2).mulXi,
    (a.c0 + a.c1) * (b.c0 + b.c1) - v0 - v1 + v2.mulXi,
    (a.c0 + a.c2) * (b.c0 + b.c2) - v0 - v2 + v1⟩

instance : Mul Fq6 := ⟨Fq6.mul⟩

def mulV (a : Fq6) : Fq6 := ⟨a.c2.mulXi, a.c0, a.c1⟩

def scale (k : Fq2) (a : Fq6) : Fq6 := ⟨k * a.c0, k * a.c1, k * a.c2⟩

/-- The inverse by the adjugate: the coefficients below are those of the product of the two
other conjugates, and the divisor is the norm. -/
protected def inv (a : Fq6) : Fq6 :=
  let t0 := a.c0 * a.c0 - (a.c1 * a.c2).mulXi
  let t1 := (a.c2 * a.c2).mulXi - a.c0 * a.c1
  let t2 := a.c1 * a.c1 - a.c0 * a.c2
  let norm := a.c0 * t0 + (a.c2 * t1 + a.c1 * t2).mulXi
  scale norm⁻¹ ⟨t0, t1, t2⟩

instance : Inv Fq6 := ⟨Fq6.inv⟩

def toBytes (a : Fq6) : List UInt8 := a.c0.toBytes ++ a.c1.toBytes ++ a.c2.toBytes

/-- Reads three coefficients and leaves the rest. -/
def ofBytes? (bs : List UInt8) : Option (Fq6 × List UInt8) := do
  let (c0, bs) ← Fq2.ofBytes? bs
  let (c1, bs) ← Fq2.ofBytes? bs
  let (c2, bs) ← Fq2.ofBytes? bs
  some (⟨c0, c1, c2⟩, bs)

theorem ofBytes?_toBytes (a : Fq6) (rest : List UInt8) :
    ofBytes? (a.toBytes ++ rest) = some (a, rest) := by
  simp only [ofBytes?, toBytes, List.append_assoc, Fq2.ofBytes?_toBytes, Option.bind_eq_bind,
    Option.bind_some]

end Fq6

/-- The element `c0 + c1 w`. -/
@[ext] structure Fq12 where
  c0 : Fq6
  c1 : Fq6
deriving DecidableEq

namespace Fq12

instance : Zero Fq12 := ⟨⟨0, 0⟩⟩

instance : One Fq12 := ⟨⟨1, 0⟩⟩

/-- The product by three products below, with `w²` replaced by `v`. -/
protected def mul (a b : Fq12) : Fq12 :=
  let v0 := a.c0 * b.c0
  let v1 := a.c1 * b.c1
  ⟨v0 + v1.mulV, (a.c0 + a.c1) * (b.c0 + b.c1) - v0 - v1⟩

instance : Mul Fq12 := ⟨Fq12.mul⟩

def conj (a : Fq12) : Fq12 := ⟨a.c0, -a.c1⟩

/-- The conjugate over the norm. -/
protected def inv (a : Fq12) : Fq12 :=
  let norm := (a.c0 * a.c0 - (a.c1 * a.c1).mulV)⁻¹
  ⟨norm * a.c0, -(norm * a.c1)⟩

instance : Inv Fq12 := ⟨Fq12.inv⟩

/-- The sixth root of unity `w ^ (p ^ 2 - 1) = (9 + u) ^ ((p ^ 2 - 1) / 6)`. -/
def frobeniusRoot : Fq2 := power Fq2.xi ((Fq.order * Fq.order - 1) / 6)

/-- The power to `p ^ 2`. Coefficients in `Fq2` are unchanged by it, and the power `w ^ k` is
multiplied by the `k`-th power of `frobeniusRoot`. -/
def frobeniusSquare (a : Fq12) : Fq12 :=
  let g := frobeniusRoot
  ⟨⟨a.c0.c0, power g 2 * a.c0.c1, power g 4 * a.c0.c2⟩,
    ⟨g * a.c1.c0, power g 3 * a.c1.c1, power g 5 * a.c1.c2⟩⟩

def byteLength : Nat := 384

def toBytes (a : Fq12) : List UInt8 := a.c0.toBytes ++ a.c1.toBytes

/-- Reads the two halves and leaves the rest. -/
def ofBytes? (bs : List UInt8) : Option (Fq12 × List UInt8) := do
  let (c0, bs) ← Fq6.ofBytes? bs
  let (c1, bs) ← Fq6.ofBytes? bs
  some (⟨c0, c1⟩, bs)

theorem ofBytes?_toBytes (a : Fq12) (rest : List UInt8) :
    ofBytes? (a.toBytes ++ rest) = some (a, rest) := by
  simp only [ofBytes?, toBytes, List.append_assoc, Fq6.ofBytes?_toBytes, Option.bind_eq_bind,
    Option.bind_some]

end Fq12

end PlonkKzg
