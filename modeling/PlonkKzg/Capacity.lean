import PlonkKzg.Error

/-!
# Capacity

How far a count can go, and how many entries a table can have. Counts are 64-bit words. A table lies
in one piece in a memory whose places are numbered by such words, and it takes less than half of the
numbers.

* `FitsWord`, `requireWord` — whether a word can hold a count, and the refusal of one that it cannot;
* `TableFits` — whether a table with a number of entries of a width in bytes is possible;
* `requireTable` — refuses a table that is not;
* `wordWidth`, `placeWidth`, `scalarWidth`, `pointWidth` — the widths of entries.
-/

namespace PlonkKzg

/-- Whether a machine word can hold a count. -/
def FitsWord (count : Nat) : Prop := count < UInt64.size

instance (count : Nat) : Decidable (FitsWord count) :=
  inferInstanceAs (Decidable (count < UInt64.size))

/-- Refuses a count that no machine word can hold. -/
def requireWord (count : Nat) : Except Fault Unit :=
  if FitsWord count then .ok () else .error (.misuse .wordOverflow)

/-- The number of bytes that no table reaches. -/
def tableLimit : Nat := Nat.pow 2 63

/-- Whether a table of `count` entries, each of `width` bytes, is possible. -/
def TableFits (count width : Nat) : Prop := count * width < tableLimit

instance (count width : Nat) : Decidable (TableFits count width) :=
  inferInstanceAs (Decidable (count * width < tableLimit))

/-- Refuses a table that is not possible. -/
def requireTable (count width : Nat) : Except Fault Unit :=
  if TableFits count width then .ok () else .error (.misuse .tableTooLarge)

theorem requireTable_eq_ok_iff {count width : Nat} :
    requireTable count width = .ok () ↔ TableFits count width := by
  unfold requireTable
  split <;> simp_all

/-- A part of a possible table is possible. -/
theorem TableFits.of_le {count count' width : Nat} (h : TableFits count width)
    (hle : count' ≤ count) : TableFits count' width :=
  Nat.lt_of_le_of_lt (Nat.mul_le_mul_right width hle) h

def wordWidth : Nat := 8

/-- The width of a word that may be absent. -/
def placeWidth : Nat := 16

def scalarWidth : Nat := 32

/-- The width of a point, which has three coordinates. -/
def pointWidth : Nat := 96

example : TableFits (Nat.pow 2 59 - 1) placeWidth := by decide
example : ¬TableFits (Nat.pow 2 59) placeWidth := by decide

end PlonkKzg
