/-!
# Numerals

Texts of numbers: a whole part without leading zeros, then a fraction, an exponent, both or neither,
and a minus sign in front of a negative number.

* `Numeral` — the parts of such a text;
* `Numeral.ofText?` — the parts of a text, if it has this form;
* `Numeral.whole?` — the integer that a numeral with only a whole part stands for, if 64 bits hold
  it, with a sign if there is one;
* `Numeral.float?` — the number of double precision that a numeral stands for. It is found in two
  roundings: the digits are read into a significand of 64 bits, which is rounded, and its product or
  quotient with a power of ten is rounded again. A numeral that is too large has none.
-/

namespace PlonkKzg

/-- The parts of the text of a number. -/
structure Numeral where
  negative : Bool
  /-- The digits before the point. -/
  whole : List Nat
  /-- The digits behind the point. -/
  fraction : List Nat
  exponent : Int
  /-- There is only a whole part. -/
  plain : Bool
deriving DecidableEq, Repr

namespace Numeral

/-- The digits that a text begins with, and what follows them. -/
def digits (cs : List Char) : List Nat × List Char :=
  ((cs.takeWhile Char.isDigit).map fun c => c.toNat - 48, cs.dropWhile Char.isDigit)

def ofDigits (ds : List Nat) : Nat := ds.foldl (fun n d => 10 * n + d) 0

def exponent? : List Char → Option Int
  | [] => some 0
  | 'e' :: cs | 'E' :: cs =>
    let (negative, cs) := match cs with
      | '-' :: cs => (true, cs)
      | '+' :: cs => (false, cs)
      | cs => (false, cs)
    match digits cs with
    | ([], _) | (_, _ :: _) => none
    | (ds, []) => some (if negative then -Int.ofNat (ofDigits ds) else Int.ofNat (ofDigits ds))
  | _ => none

def ofText? (text : String) : Option Numeral :=
  let (negative, cs) := match text.toList with
    | '-' :: cs => (true, cs)
    | cs => (false, cs)
  match digits cs with
  | ([], _) | (0 :: _ :: _, _) => none
  | (whole, '.' :: cs) =>
    match digits cs with
    | ([], _) => none
    | (fraction, cs) => (exponent? cs).map fun e => ⟨negative, whole, fraction, e, false⟩
  | (whole, cs) => (exponent? cs).map fun e => ⟨negative, whole, [], e, cs.isEmpty⟩

/-- A significand with further digits as long as 64 bits hold it, and the digits left over. -/
def extend (n : Nat) : List Nat → Nat × List Nat
  | [] => (n, [])
  | d :: ds => if 10 * n + d < UInt64.size then extend (10 * n + d) ds else (n, d :: ds)

def whole? (x : Numeral) : Option Int :=
  match x.plain, extend 0 x.whole with
  | true, (n, []) =>
    if !x.negative then some (Int.ofNat n)
    else if 0 < n ∧ n ≤ Nat.pow 2 63 then some (-Int.ofNat n)
    else none
  | _, _ => none

/-- The significand and its power of ten. Digits left over count before the point and not behind
it. -/
def scaled (x : Numeral) : Nat × Int :=
  let (n, excess) := extend 0 x.whole
  let (n, left) := extend n x.fraction
  (n, x.exponent + excess.length - (x.fraction.length - left.length))

def tenPower (k : Nat) : Float := Float.ofScientific 1 false k

/-- A significand times a power of ten. The greatest power of ten that can be a divisor is the 308th,
and two of them leave nothing of 64 bits. -/
def scale? (n : Nat) (k : Int) : Option Float :=
  let x := Float.ofScientific n false 0
  if 308 < k then (if n = 0 then some 0 else none)
  else if 0 ≤ k then
    let y := x * tenPower k.toNat
    if y.isInf then none else some y
  else if -308 ≤ k then some (x / tenPower (-k).toNat)
  else if -616 ≤ k then some (x / tenPower 308 / tenPower (-k - 308).toNat)
  else some 0

def float? (x : Numeral) : Option Float :=
  let (n, k) := x.scaled
  (scale? n k).map fun y => if x.negative then -y else y

example : ofText? "-12.50e-3" = some ⟨true, [1, 2], [5, 0], -3, false⟩ := by decide +kernel
example : ofText? "012" = none := by decide +kernel
example : (ofText? "-9223372036854775808").bind whole? = some (-9223372036854775808) := by
  decide +kernel
example : (ofText? "18446744073709551616").bind whole? = none := by decide +kernel
example : (ofText? "18446744073709551616").map scaled = some (1844674407370955161, 1) := by
  decide +kernel

end Numeral

end PlonkKzg
