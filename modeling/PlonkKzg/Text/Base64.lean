/-!
# Base64 text

Bytes as text in the alphabet that is safe in links: letters, digits, `-` and `_`. Three bytes
make four symbols; one or two bytes at the end make two or three symbols, filled up with `=` to
four when written.

* `Base64.encode` — bytes to text, with padding;
* `Base64.decode?` — text to bytes. Padding may be missing or partial but never longer than the
  last group needs, and the bits of the last symbol that no byte uses must be zero.
-/

namespace PlonkKzg.Base64

def symbol (v : Nat) : Char :=
  if v < 26 then Char.ofNat (65 + v)
  else if v < 52 then Char.ofNat (97 + (v - 26))
  else if v < 62 then Char.ofNat (48 + (v - 52))
  else if v = 62 then '-'
  else '_'

def value? (c : Char) : Option Nat :=
  if 65 ≤ c.toNat ∧ c.toNat ≤ 90 then some (c.toNat - 65)
  else if 97 ≤ c.toNat ∧ c.toNat ≤ 122 then some (c.toNat - 97 + 26)
  else if 48 ≤ c.toNat ∧ c.toNat ≤ 57 then some (c.toNat - 48 + 52)
  else if c = '-' then some 62
  else if c = '_' then some 63
  else none

theorem value?_symbol : ∀ v < 64, value? (symbol v) = some v := by decide

/-- The padded text of bytes. -/
def encodeChars : List UInt8 → List Char
  | [] => []
  | [a] => [symbol (a.toNat / 4), symbol (a.toNat % 4 * 16), '=', '=']
  | [a, b] =>
      [symbol (a.toNat / 4), symbol (a.toNat % 4 * 16 + b.toNat / 16),
        symbol (b.toNat % 16 * 4), '=']
  | a :: b :: c :: rest =>
      symbol (a.toNat / 4) :: symbol (a.toNat % 4 * 16 + b.toNat / 16) ::
        symbol (b.toNat % 16 * 4 + c.toNat / 64) :: symbol (c.toNat % 64) :: encodeChars rest

/-- The byte that two symbols write; the last four bits must be zero. -/
def decodeTwo? (a b : Char) : Option (List UInt8) := do
  let u ← value? a
  let v ← value? b
  if v % 16 = 0 then some [UInt8.ofNat (u * 4 + v / 16)] else none

/-- The two bytes that three symbols write; the last two bits must be zero. -/
def decodeThree? (a b c : Char) : Option (List UInt8) := do
  let u ← value? a
  let v ← value? b
  let w ← value? c
  if w % 4 = 0 then
    some [UInt8.ofNat (u * 4 + v / 16), UInt8.ofNat (v % 16 * 16 + w / 4)]
  else none

/-- The three bytes that four symbols write. -/
def decodeFour? (a b c d : Char) : Option (List UInt8) := do
  let u ← value? a
  let v ← value? b
  let w ← value? c
  let x ← value? d
  some [UInt8.ofNat (u * 4 + v / 16), UInt8.ofNat (v % 16 * 16 + w / 4),
    UInt8.ofNat (w % 4 * 64 + x)]

/-- The bytes of a text, group by group. -/
def decodeChars? : List Char → Option (List UInt8)
  | [] => some []
  | [a, b] => decodeTwo? a b
  | [a, b, '='] => decodeTwo? a b
  | [a, b, '=', '='] => decodeTwo? a b
  | [a, b, c] => decodeThree? a b c
  | [a, b, c, '='] => decodeThree? a b c
  | a :: b :: c :: d :: rest => do
      let front ← decodeFour? a b c d
      let back ← decodeChars? rest
      some (front ++ back)
  | [_] => none

def encode (bs : List UInt8) : String := String.ofList (encodeChars bs)

def decode? (text : String) : Option (List UInt8) := decodeChars? text.toList

example : encodeChars [255, 254] = ['_', '_', '4', '='] := by decide
example : decodeChars? ['Q', 'Q', '='] = some [65] := by decide
example : decodeChars? ['Q', 'R', '=', '='] = none := by decide

end PlonkKzg.Base64
