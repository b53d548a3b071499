/-!
# The Keccak permutation

The permutation of 1600 bits that the transcript is built on, on 25 lanes of 64 bits in five rows.

* `Five` — five items with their places;
* `Keccak.State`, `Keccak.lane` — the lanes, by column and row;
* `Keccak.theta`, `Keccak.rhoPi`, `Keccak.chi` — the steps of a round: column parities, rotation
  and relocation of the lanes, and the only step that is not linear;
* `Keccak.round` — the three steps and a round constant;
* `Keccak.permute` — the twenty-four rounds;
* `Keccak.byte`, `Keccak.xorByte` — single bytes of the state, eight to a lane, low ones first.
-/

namespace PlonkKzg

structure Five (α : Type) where
  a : α
  b : α
  c : α
  d : α
  e : α

namespace Five

variable {α : Type}

def ofFn (f : Fin 5 → α) : Five α := ⟨f 0, f 1, f 2, f 3, f 4⟩

def get (v : Five α) : Fin 5 → α
  | 0 => v.a
  | 1 => v.b
  | 2 => v.c
  | 3 => v.d
  | 4 => v.e

def set (v : Five α) (item : α) : Fin 5 → Five α
  | 0 => { v with a := item }
  | 1 => { v with b := item }
  | 2 => { v with c := item }
  | 3 => { v with d := item }
  | 4 => { v with e := item }

end Five

namespace Keccak

/-- The 25 lanes, row after row. -/
abbrev State : Type := Five (Five UInt64)

/-- Rotation of a lane to the left. Shifts count modulo 64, so a rotation by none is right too. -/
def rotate (x : UInt64) (k : UInt64) : UInt64 := (x <<< k) ||| (x >>> (64 - k))

def lane (s : State) (x y : Fin 5) : UInt64 := (s.get y).get x

/-- The state whose lanes are given by column and row. -/
def ofLanes (f : Fin 5 → Fin 5 → UInt64) : State := .ofFn fun y => .ofFn fun x => f x y

def setLane (s : State) (x y : Fin 5) (v : UInt64) : State := s.set ((s.get y).set v x) y

/-- The parity of a column. -/
def parity (s : State) (x : Fin 5) : UInt64 :=
  lane s x 0 ^^^ lane s x 1 ^^^ lane s x 2 ^^^ lane s x 3 ^^^ lane s x 4

/-- Each lane takes up the parities of the columns on both sides. -/
def theta (s : State) : State :=
  let parities : Five UInt64 := .ofFn (parity s)
  let around : Five UInt64 := .ofFn fun x =>
    parities.get (x + 4) ^^^ rotate (parities.get (x + 1)) 1
  ofLanes fun x y => lane s x y ^^^ around.get x

/-- The rotation of each lane. -/
def offsets : State :=
  ⟨⟨0, 1, 62, 28, 27⟩,
    ⟨36, 44, 6, 55, 20⟩,
    ⟨3, 10, 43, 25, 39⟩,
    ⟨41, 45, 15, 21, 8⟩,
    ⟨18, 2, 61, 56, 14⟩⟩

/-- Each lane is rotated, and the lane at `(x, y)` goes to `(y, 2 x + 3 y)`. -/
def rhoPi (s : State) : State :=
  ofLanes fun x y => rotate (lane s (x + 3 * y) x) (lane offsets (x + 3 * y) x)

/-- Each lane changes where the next lane of its row has a zero and the one after it a one. -/
def chi (s : State) : State :=
  ofLanes fun x y => lane s x y ^^^ (~~~lane s (x + 1) y &&& lane s (x + 2) y)

def round (s : State) (constant : UInt64) : State :=
  let t := chi (rhoPi (theta s))
  setLane t 0 0 (lane t 0 0 ^^^ constant)

def constants : List UInt64 :=
  [0x0000000000000001, 0x0000000000008082, 0x800000000000808A, 0x8000000080008000,
    0x000000000000808B, 0x0000000080000001, 0x8000000080008081, 0x8000000000008009,
    0x000000000000008A, 0x0000000000000088, 0x0000000080008009, 0x000000008000000A,
    0x000000008000808B, 0x800000000000008B, 0x8000000000008089, 0x8000000000008003,
    0x8000000000008002, 0x8000000000000080, 0x000000000000800A, 0x800000008000000A,
    0x8000000080008081, 0x8000000000008080, 0x0000000080000001, 0x8000000080008008]

def permute (s : State) : State := constants.foldl round s

def byteColumn (i : Fin 200) : Fin 5 := ⟨i.val / 8 % 5, Nat.mod_lt _ (by decide)⟩

def byteRow (i : Fin 200) : Fin 5 := ⟨i.val / 40, Nat.div_lt_of_lt_mul i.isLt⟩

/-- How far a byte of a place stands to the left in its lane. -/
def byteShift (i : Nat) : UInt64 := UInt64.ofNat (8 * (i % 8))

/-- The byte at a place. -/
def byte (s : State) (i : Fin 200) : UInt8 :=
  (lane s (byteColumn i) (byteRow i) >>> byteShift i.val).toUInt8

/-- A byte is added bit by bit to the one at a place. -/
def xorByte (s : State) (i : Fin 200) (b : UInt8) : State :=
  let x := byteColumn i
  let y := byteRow i
  setLane s x y (lane s x y ^^^ (b.toUInt64 <<< byteShift i.val))

def zero : State := ofLanes fun _ _ => 0

example : byte (xorByte zero 13 7) 13 = 7 := by decide
example : byte (xorByte zero 13 7) 14 = 0 := by decide

end Keccak

end PlonkKzg
