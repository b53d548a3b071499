import PlonkKzg.Error
import PlonkKzg.Field.Scalar
import PlonkKzg.Field.Fq12

/-!
# The target group

The values of pairings, written additively: elements of `Fq12` under multiplication.

* `Gt` — an element of `Fq12`, acted on by the scalars;
* `0`, `+`, `-`, `•` — one, product, conjugate and power. The conjugate of a value of a pairing is
  its inverse;
* `Gt.null` — the zero of `Fq12`, which is no group element but has the same type;
* `Gt.toBytes`, `Gt.ofBytes?` — 384 bytes, read coefficient by coefficient;
* `Gt.debugText` — the coefficients in 64-bit limbs.
-/

namespace PlonkKzg

/-- A value of a pairing. -/
@[ext] structure Gt where
  value : Fq12
deriving DecidableEq

namespace Gt

/-- The neutral element, one. -/
instance : Zero Gt := ⟨⟨1⟩⟩

/-- The sum multiplies the values. -/
protected def add (a b : Gt) : Gt := ⟨a.value * b.value⟩

instance : Add Gt := ⟨Gt.add⟩

/-- The negative conjugates the value. -/
protected def neg (a : Gt) : Gt := ⟨a.value.conj⟩

instance : Neg Gt := ⟨Gt.neg⟩

instance : Sub Gt := ⟨fun a b => a + -b⟩

/-- A scalar raises the value to a power. -/
instance : SMul Scalar Gt := ⟨fun k a => ⟨power a.value k.val⟩⟩

def double (a : Gt) : Gt := a + a

def null : Gt := ⟨0⟩

instance : Inhabited Gt := ⟨null⟩

def byteLength : Nat := Fq12.byteLength

def toBytes (a : Gt) : List UInt8 := a.value.toBytes

/-- Reads twelve coefficients. That they form a value of a pairing is not checked. -/
def ofBytes? (bs : List UInt8) : Except AlgebraError Gt :=
  match Fq12.ofBytes? bs with
  | some (value, _) => .ok ⟨value⟩
  | none => .error .undecodable

theorem ofBytes?_toBytes (a : Gt) (rest : List UInt8) : ofBytes? (a.toBytes ++ rest) = .ok a := by
  simp only [ofBytes?, toBytes, Fq12.ofBytes?_toBytes]

def limbsText (a : Fq) : String :=
  let limb (i : Nat) : String := toString (a.val / Nat.pow UInt64.size i % UInt64.size)
  "BigInt([" ++ limb 0 ++ ", " ++ limb 1 ++ ", " ++ limb 2 ++ ", " ++ limb 3 ++ "])"

/-- A named list of parts. -/
def recordText (name : String) (parts : List (String × String)) : String :=
  name ++ " \x7b " ++ ", ".intercalate (parts.map fun p => p.1 ++ ": " ++ p.2) ++ " \x7d"

def debugFq2 (a : Fq2) : String :=
  recordText "QuadExtField" [("c0", limbsText a.c0), ("c1", limbsText a.c1)]

def debugFq6 (a : Fq6) : String :=
  recordText "CubicExtField" [("c0", debugFq2 a.c0), ("c1", debugFq2 a.c1), ("c2", debugFq2 a.c2)]

/-- The coefficients of a value, in nested records. -/
def debugText (a : Gt) : String :=
  "BN254Gt(" ++
    recordText "QuadExtField" [("c0", debugFq6 a.value.c0), ("c1", debugFq6 a.value.c1)] ++ ")"

end Gt

end PlonkKzg
