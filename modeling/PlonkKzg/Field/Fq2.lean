import PlonkKzg.Field.Fq

/-!
# The quadratic extension of the base field

Pairs `c0 + c1 u` with `u² = -1`, over which the second pairing group lives.

* `Fq2` — the pair, with `+`, `-`, `*` and `⁻¹`;
* `Fq2.conj` — `c0 - c1 u`, which is also the power to `p`;
* `Fq2.norm` — `c0² + c1²`, the product with the conjugate;
* `Fq2.sqrt?` — a square root;
* `Fq2.larger` — whether an element is larger than its negative, where `c1` is compared first;
* `Fq2.toBytes`, `Fq2.ofBytes?` — `c0`, then `c1`.
-/

namespace PlonkKzg

/-- The element `c0 + c1 u`. -/
@[ext] structure Fq2 where
  c0 : Fq
  c1 : Fq
deriving DecidableEq

namespace Fq2

instance : Zero Fq2 := ⟨⟨0, 0⟩⟩

instance : One Fq2 := ⟨⟨1, 0⟩⟩

instance : Inhabited Fq2 := ⟨0⟩

protected def add (a b : Fq2) : Fq2 := ⟨a.c0 + b.c0, a.c1 + b.c1⟩

instance : Add Fq2 := ⟨Fq2.add⟩

protected def sub (a b : Fq2) : Fq2 := ⟨a.c0 - b.c0, a.c1 - b.c1⟩

instance : Sub Fq2 := ⟨Fq2.sub⟩

protected def neg (a : Fq2) : Fq2 := ⟨-a.c0, -a.c1⟩

instance : Neg Fq2 := ⟨Fq2.neg⟩

/-- The product by three products below: the sum of the mixed ones is the product of the sums
less the two others. -/
protected def mul (a b : Fq2) : Fq2 :=
  let v0 := a.c0 * b.c0
  let v1 := a.c1 * b.c1
  ⟨v0 - v1, (a.c0 + a.c1) * (b.c0 + b.c1) - v0 - v1⟩

instance : Mul Fq2 := ⟨Fq2.mul⟩

def ofFq (a : Fq) : Fq2 := ⟨a, 0⟩

def conj (a : Fq2) : Fq2 := ⟨a.c0, -a.c1⟩

/-- The product with the conjugate, which lies in the base field. -/
def norm (a : Fq2) : Fq := a.c0 * a.c0 + a.c1 * a.c1

def scale (k : Fq) (a : Fq2) : Fq2 := ⟨k * a.c0, k * a.c1⟩

/-- The conjugate over the norm. -/
protected def inv (a : Fq2) : Fq2 := scale a.norm⁻¹ a.conj

instance : Inv Fq2 := ⟨Fq2.inv⟩

/-- The constant `9 + u`, which is neither a square nor a cube. -/
def xi : Fq2 := ⟨Fq.ofNat 9, 1⟩

def mulXi (a : Fq2) : Fq2 := xi * a

def half (a : Fq) : Fq := a * (Fq.ofNat 2)⁻¹

/-- The candidate for a square root of `c0 + c1 u`. For `c1 = 0` it is a root of `c0`, or `u`
times a root of `-c0`. Otherwise a root `x + y u` has `x² = (c0 ± s) / 2` for a root `s` of the
norm, and `y = c1 / (2 x)`. -/
def sqrtCandidate? (a : Fq2) : Option Fq2 :=
  if a.c1 = 0 then
    match a.c0.sqrt? with
    | some x => some ⟨x, 0⟩
    | none => (-a.c0).sqrt?.map fun y => ⟨0, y⟩
  else
    a.norm.sqrt?.bind fun s =>
      let x? := (half (a.c0 + s)).sqrt? <|> (half (a.c0 - s)).sqrt?
      x?.map fun x => ⟨x, a.c1 * (x + x)⁻¹⟩

/-- A square root, if the element is a square. -/
def sqrt? (a : Fq2) : Option Fq2 :=
  (sqrtCandidate? a).bind fun root => if root * root = a then some root else none

theorem mul_self_of_sqrt? {a b : Fq2} (h : sqrt? a = some b) : b * b = a := by
  unfold sqrt? at h
  simp only [Option.bind_eq_some_iff, Option.ite_none_right_eq_some, Option.some.injEq] at h
  obtain ⟨root, _, hr, rfl⟩ := h
  exact hr

/-- Whether the element is larger than its negative. The coefficients of `u` decide unless they
are equal. -/
def larger (a : Fq2) : Bool :=
  let b := -a
  if a.c1 = b.c1 then decide (b.c0.val < a.c0.val) else decide (b.c1.val < a.c1.val)

def byteLength : Nat := 64

def toBytes (a : Fq2) : List UInt8 := a.c0.toBytes ++ a.c1.toBytes

@[simp] theorem toBytes_length (a : Fq2) : a.toBytes.length = byteLength := by
  simp only [toBytes, List.length_append, Fq.toBytes_length]
  rfl

/-- Reads two coefficients and leaves the rest. -/
def ofBytes? (bs : List UInt8) : Option (Fq2 × List UInt8) := do
  let (c0, bs) ← Fq.ofBytes? bs
  let (c1, bs) ← Fq.ofBytes? bs
  some (⟨c0, c1⟩, bs)

theorem ofBytes?_toBytes (a : Fq2) (rest : List UInt8) :
    ofBytes? (a.toBytes ++ rest) = some (a, rest) := by
  simp only [ofBytes?, toBytes, List.append_assoc, Fq.ofBytes?_toBytes, Option.bind_eq_bind,
    Option.bind_some]

example : (⟨0, 1⟩ : Fq2) * ⟨0, 1⟩ = -1 := by decide

end Fq2

end PlonkKzg
