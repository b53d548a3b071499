/-!
# Shortest decimal text

Numbers of double precision in decimal, with the fewest digits that read back.

* `Binary` — the number `mantissa * 2 ^ exponent`, with half the distance to its neighbours;
* `Binary.nearest?` — the multiple of a power of ten that lies closest among those that round to
  the number, if there is one;
* `Binary.shortest` — this multiple for the largest power of ten that has one;
* `positional` — digits with a point and no exponent, at least one on each side of the point;
* `scientific` — digits with the point behind the first one, and an exponent with its sign;
* `decimalText` — positional if the point is near the digits, scientific otherwise;
* `floatText` — the text of a finite number.
-/

namespace PlonkKzg

/-- A finite number without its sign. -/
structure Binary where
  mantissa : Nat
  exponent : Int
  /-- The distance to the next number below is half the distance to the next one above. -/
  lowest : Bool

namespace Binary

/-- The absolute value of a finite number of double precision. -/
def ofFloat (x : Float) : Binary :=
  let bits := x.toBits.toNat
  let fraction := bits % Nat.pow 2 52
  let power := bits / Nat.pow 2 52 % Nat.pow 2 11
  if power = 0 then ⟨fraction, -1074, false⟩
  else ⟨Nat.pow 2 52 + fraction, Int.ofNat power - 1075, fraction = 0 ∧ 1 < power⟩

/-- A quarter of the last binary place is `unit / grid` of the power `10 ^ k`. -/
def unit (b : Binary) (k : Int) : Nat := Nat.pow 2 (b.exponent - 2).toNat * Nat.pow 10 (-k).toNat

/-- See `unit`. -/
def grid (b : Binary) (k : Int) : Nat := Nat.pow 2 (2 - b.exponent).toNat * Nat.pow 10 k.toNat

/-- Whether `n * 10 ^ k` is a number that rounds to this one: it lies between the middles of the
distances to the neighbours, which belong to the number with the even mantissa. -/
def roundsFrom (b : Binary) (k : Int) (n : Nat) : Bool :=
  let low := (4 * b.mantissa - if b.lowest then 1 else 2) * b.unit k
  let high := (4 * b.mantissa + 2) * b.unit k
  let x := n * b.grid k
  if b.mantissa % 2 = 0 then low ≤ x ∧ x ≤ high else low < x ∧ x < high

/-- The closer to the number of two neighbouring multiples of `10 ^ k` around it, or the even one if
both are equally close. The lower of the two is given. -/
def closer (b : Binary) (k : Int) (below : Nat) : Nat :=
  match compare (8 * b.mantissa * b.unit k) ((2 * below + 1) * b.grid k) with
  | .lt => below
  | .eq => below + below % 2
  | .gt => below + 1

/-- The multiple of `10 ^ k` closest to the number among those that round to it. One of the two
multiples around the number is the closest. -/
def nearest? (b : Binary) (k : Int) : Option Nat :=
  let below := 4 * b.mantissa * b.unit k / b.grid k
  match b.roundsFrom k below, b.roundsFrom k (below + 1) with
  | true, true => some (b.closer k below)
  | true, false => some below
  | false, true => some (below + 1)
  | false, false => none

/-- The first multiple of a power of ten among `fuel` powers from `10 ^ k` down. -/
def search (b : Binary) : Nat → Int → Nat × Int
  | 0, k => (0, k)
  | fuel + 1, k =>
    match b.nearest? k with
    | some n => (n, k)
    | none => search b fuel (k - 1)

/-- The multiple of a power of ten with the fewest digits. The powers of ten that are tried reach
from above the greatest number of double precision to below the last place of the smallest. -/
def shortest (b : Binary) : Nat × Int := if b.mantissa = 0 then (0, 0) else b.search 700 310

end Binary

def positional (n : Nat) (k : Int) : String :=
  let digits := (toString n).toList
  let fraction := (-k).toNat
  let padded := List.replicate (fraction + 1 - digits.length) '0' ++ digits
  let whole := padded.take (padded.length - fraction) ++ List.replicate k.toNat '0'
  let rest := padded.drop (padded.length - fraction)
  String.ofList (whole ++ '.' :: if rest.isEmpty then ['0'] else rest)

/-- The power of ten of the first digit of `n * 10 ^ k`. -/
def leadingPower (n : Nat) (k : Int) : Int := k + (toString n).length - 1

def scientific (n : Nat) (k : Int) : String :=
  let power := leadingPower n k
  let digits := match (toString n).toList with
    | d :: e :: ds => d :: '.' :: e :: ds
    | ds => ds
  String.ofList digits ++ (if power < 0 then "e-" else "e+") ++ toString power.natAbs

/-- The digits of `n * 10 ^ k`: positional if the first digit is at most the sixteenth before the
point and at most the fifth behind it, scientific otherwise. -/
def decimalText (n : Nat) (k : Int) : String :=
  if -5 ≤ leadingPower n k ∧ leadingPower n k < 16 then positional n k else scientific n k

def floatText (x : Float) : String :=
  let (n, k) := (Binary.ofFloat x).shortest
  (if 0x8000000000000000 ≤ x.toBits then "-" else "") ++ decimalText n k

example : decimalText 0 0 = "0.0" := by decide +kernel
example : decimalText 15 (-1) = "1.5" := by decide +kernel
example : decimalText 1 (-5) = "0.00001" := by decide +kernel
example : decimalText 95 14 = "9500000000000000.0" := by decide +kernel
example : decimalText 1 16 = "1e+16" := by decide +kernel
example : decimalText 9999 (-9) = "9.999e-6" := by decide +kernel
example : (Binary.mk 7205759403792794 (-56) false).shortest = (1, -1) := by decide +kernel
example : (Binary.mk 4503599627370496 (-77) true).shortest = (29802322387695312, -24) := by
  decide +kernel

end PlonkKzg
