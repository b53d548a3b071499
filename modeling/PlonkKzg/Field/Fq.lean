import PlonkKzg.Field.Residue

/-!
# The base field

The prime field over which the first pairing group lives.

* `Fq.order` — the prime `p`;
* `Fq.sqrt?` — a square root: since `p` is three modulo four, the power to `(p + 1) / 4` squares
  to the element or to its negative, and the square is compared with the element;
* `Fq.toBytes`, `Fq.ofBytes?` — exactly 32 little-endian bytes;
* `Fq.larger` — whether an element is larger than its negative;
* `Fq.display` — its decimal digits.
-/

namespace PlonkKzg

def Fq.order : Nat :=
  21888242871839275222246405745257275088696311157297823662689037894645226208583

instance Fq.order_modulus : Modulus Fq.order := ⟨by decide⟩

abbrev Fq : Type := Residue Fq.order

namespace Fq

def ofNat (n : Nat) : Fq := Residue.ofNat order n

/-- A square root, if the element is a square. -/
def sqrt? (a : Fq) : Option Fq :=
  let root := power a ((order + 1) / 4)
  if root * root = a then some root else none

theorem mul_self_of_sqrt? {a b : Fq} (h : sqrt? a = some b) : b * b = a := by
  unfold sqrt? at h
  simp only [Option.ite_none_right_eq_some, Option.some.injEq] at h
  exact h.2 ▸ h.1

/-- Whether the element is larger than its negative. -/
def larger (a : Fq) : Bool := decide ((-a).val < a.val)

def byteLength : Nat := 32

/-- The canonical representative in 32 bytes, least significant first. -/
def toBytes (a : Fq) : List UInt8 := Residue.toBytes byteLength a

@[simp] theorem toBytes_length (a : Fq) : a.toBytes.length = byteLength :=
  Residue.toBytes_length _ a

/-- Reads a representative from the first 32 bytes and leaves the rest. -/
def ofBytes? (bs : List UInt8) : Option (Fq × List UInt8) := do
  let (front, rest) ← splitBytes? byteLength bs
  let a ← Residue.ofBytes? order front
  some (a, rest)

theorem order_le : order ≤ Nat.pow 256 byteLength := by decide

theorem ofBytes?_toBytes (a : Fq) (rest : List UInt8) :
    ofBytes? (a.toBytes ++ rest) = some (a, rest) := by
  have h := splitBytes?_append a.toBytes rest
  rw [toBytes_length] at h
  simp only [ofBytes?, h, Option.bind_eq_bind, Option.bind_some]
  rw [toBytes, Residue.ofBytes?_toBytes order_le, Option.bind_some]

/-- The decimal digits of an element; zero has none. -/
def display (a : Fq) : String := if a = 0 then "" else toString a.val

example : sqrt? (ofNat 9) = some (-ofNat 3) := by decide +kernel

end Fq

end PlonkKzg
