import PlonkKzg.Text.Numeral
import PlonkKzg.Text.Shortest

/-!
# JSON values

The tree of values that readable encodings are made of.

* `Json` — a value; numbers are whole or floating, and an object keeps the order of its members;
* `Json.render` — compact text;
* `Json.number?` — the value of the text of a number;
* `Json.describe` — what kind of value stands where another was expected.
-/

namespace PlonkKzg

/-- A value of the text format. -/
inductive Json where
  | null
  | bool (b : Bool)
  | whole (n : Int)
  /-- A number that is not written as a whole one, or that 64 bits cannot hold. -/
  | floating (x : Float)
  | text (s : String)
  | array (items : List Json)
  | object (members : List (String × Json))
deriving Inhabited

namespace Json

def number? (text : String) : Option Json := do
  let x ← Numeral.ofText? text
  match x.whole? with
  | some n => some (whole n)
  | none => x.float?.map floating

def hexDigit (n : Nat) : Char := if n < 10 then Char.ofNat (48 + n) else Char.ofNat (87 + n)

/-- A character inside quotes. Quotes, backslashes and control characters are escaped. -/
def escapeChar (c : Char) : List Char :=
  if c = '"' then ['\\', '"']
  else if c = '\\' then ['\\', '\\']
  else if c.toNat = 8 then ['\\', 'b']
  else if c.toNat = 9 then ['\\', 't']
  else if c.toNat = 10 then ['\\', 'n']
  else if c.toNat = 12 then ['\\', 'f']
  else if c.toNat = 13 then ['\\', 'r']
  else if c.toNat < 32 then
    ['\\', 'u', '0', '0', hexDigit (c.toNat / 16), hexDigit (c.toNat % 16)]
  else [c]

def quote (s : String) : String := "\"" ++ String.ofList (s.toList.flatMap escapeChar) ++ "\""

mutual

/-- The compact text of a value. -/
def render : Json → String
  | null => "null"
  | bool b => if b then "true" else "false"
  | whole n => toString n
  | floating x => floatText x
  | text s => quote s
  | array items => "[" ++ ",".intercalate (renderItems items) ++ "]"
  | object members => "\x7b" ++ ",".intercalate (renderMembers members) ++ "\x7d"

def renderItems : List Json → List String
  | [] => []
  | v :: vs => v.render :: renderItems vs

def renderMembers : List (String × Json) → List String
  | [] => []
  | (k, v) :: rest => (quote k ++ ":" ++ v.render) :: renderMembers rest

end

/-- The kind of a value, with the value itself if it is short. -/
def describe : Json → String
  | null => "null"
  | bool b => "boolean `" ++ (if b then "true" else "false") ++ "`"
  | whole n => "integer `" ++ toString n ++ "`"
  | floating x => "floating point `" ++ floatText x ++ "`"
  | text s => "string " ++ quote s
  | array _ => "sequence"
  | object _ => "map"

/-- The first member of a given name. -/
def member? (name : String) (members : List (String × Json)) : Option Json :=
  (members.find? fun m => m.1 == name).map (·.2)

end Json

end PlonkKzg
