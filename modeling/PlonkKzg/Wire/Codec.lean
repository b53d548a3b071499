import PlonkKzg.Bytes
import PlonkKzg.Wire.Json

/-!
# Codecs

Each value that leaves the library has two encodings, JSON for readers and bytes for machines.
A codec holds the four functions; codecs of structures are built from codecs of their parts.

* `Codec α` — writing and reading `α` in both formats. Reading bytes leaves what follows;
* `Codec.RoundTrips` — both formats give a value back, the bytes in front of any others;
* `Codec.word` — a 64-bit number, in eight bytes;
* `Codec.list` — a list: its length as a word, then its items;
* `Codec.map` — the same encoding for a type with the same values;
* `Fields α` — a fixed sequence of named parts, encoded one after the other;
* `Fields.record` — the parts as a JSON object in their order. Reading takes the members in any
  order, ignores others, and also takes an array of the parts;
* `Fields.tuple` — the parts as a JSON array.
-/

namespace PlonkKzg

/-- The readable and the binary encoding of a type. -/
structure Codec (α : Type) where
  toJson : α → Json
  ofJson? : Json → Option α
  put : α → List UInt8
  get? : List UInt8 → Option (α × List UInt8)

namespace Codec

variable {α β : Type}

/-- Both encodings give the value back. -/
structure RoundTrips (c : Codec α) (a : α) : Prop where
  json : c.ofJson? (c.toJson a) = some a
  binary (rest : List UInt8) : c.get? (c.put a ++ rest) = some (a, rest)

def putWord (w : UInt64) : List UInt8 := littleEndian 8 w.toNat

def getWord? (bs : List UInt8) : Option (UInt64 × List UInt8) :=
  (splitBytes? 8 bs).map fun p => (UInt64.ofNat (ofLittleEndian p.1), p.2)

theorem getWord?_putWord (w : UInt64) (rest : List UInt8) :
    getWord? (putWord w ++ rest) = some (w, rest) := by
  have h := splitBytes?_append (putWord w) rest
  rw [putWord, littleEndian_length] at h
  simp only [getWord?, putWord, h, Option.map_some, ofLittleEndian_littleEndian]
  have hw : w.toNat % Nat.pow 256 8 = w.toNat := Nat.mod_eq_of_lt w.toNat_lt
  rw [hw, UInt64.ofNat_toNat]

def word : Codec UInt64 where
  toJson w := .whole w.toNat
  ofJson?
    | .whole (.ofNat n) => if n < UInt64.size then some (UInt64.ofNat n) else none
    | _ => none
  put := putWord
  get? := getWord?

theorem word_roundTrips (w : UInt64) : word.RoundTrips w where
  json := by
    have hw : w.toNat < UInt64.size := w.toNat_lt
    change (if w.toNat < UInt64.size then some (UInt64.ofNat w.toNat) else none) = some w
    rw [if_pos hw, UInt64.ofNat_toNat]
  binary := getWord?_putWord w

/-- Reads items until their number is reached. -/
def getMany? (c : Codec α) : Nat → List UInt8 → Option (List α × List UInt8)
  | 0, bs => some ([], bs)
  | n + 1, bs => do
      let (a, bs) ← c.get? bs
      let (as, bs) ← getMany? c n bs
      some (a :: as, bs)

/-- Reads all items of an array. -/
def ofItems? (c : Codec α) : List Json → Option (List α)
  | [] => some []
  | v :: vs => do
      let a ← c.ofJson? v
      let as ← ofItems? c vs
      some (a :: as)

theorem getMany?_flatMap {c : Codec α} {as : List α} (h : ∀ a ∈ as, c.RoundTrips a)
    (rest : List UInt8) : getMany? c as.length (as.flatMap c.put ++ rest) = some (as, rest) := by
  induction as with
  | nil => rfl
  | cons a as ih =>
      have ha := (h a (by simp)).binary
      have ih := ih fun x hx => h x (by simp [hx])
      simp only [List.length_cons, List.flatMap_cons, List.append_assoc, getMany?, ha, ih,
        Option.bind_eq_bind, Option.bind_some]

theorem ofItems?_map {c : Codec α} {as : List α} (h : ∀ a ∈ as, c.RoundTrips a) :
    ofItems? c (as.map c.toJson) = some as := by
  induction as with
  | nil => rfl
  | cons a as ih =>
      have ha := (h a (by simp)).json
      have ih := ih fun x hx => h x (by simp [hx])
      simp only [List.map_cons, ofItems?, ha, ih, Option.bind_eq_bind, Option.bind_some]

/-- A list of any length below `2 ^ 64`. -/
def list (c : Codec α) : Codec (List α) where
  toJson as := .array (as.map c.toJson)
  ofJson?
    | .array vs => ofItems? c vs
    | _ => none
  put as := putWord (UInt64.ofNat as.length) ++ as.flatMap c.put
  get? bs := do
    let (n, bs) ← getWord? bs
    getMany? c n.toNat bs

theorem list_roundTrips {c : Codec α} {as : List α} (h : ∀ a ∈ as, c.RoundTrips a)
    (hlen : as.length < UInt64.size) : c.list.RoundTrips as where
  json := ofItems?_map h
  binary rest := by
    have hn : (UInt64.ofNat as.length).toNat = as.length := by
      rw [UInt64.toNat_ofNat', Nat.mod_eq_of_lt hlen]
    simp only [list, List.append_assoc, getWord?_putWord, Option.bind_eq_bind, Option.bind_some,
      hn, getMany?_flatMap h]

/-- The encoding of `α` for a type whose values correspond to those of `α`. -/
def map (c : Codec α) (forth : α → β) (back : β → α) : Codec β where
  toJson b := c.toJson (back b)
  ofJson? v := (c.ofJson? v).map forth
  put b := c.put (back b)
  get? bs := (c.get? bs).map fun p => (forth p.1, p.2)

theorem map_roundTrips {c : Codec α} {forth : α → β} {back : β → α} {b : β}
    (hc : c.RoundTrips (back b)) (h : forth (back b) = b) : (c.map forth back).RoundTrips b where
  json := by simp only [map, hc.json, Option.map_some, h]
  binary rest := by simp only [map, hc.binary, Option.map_some, h]

end Codec

/-- A sequence of named parts. -/
structure Fields (α : Type) where
  names : List String
  toItems : α → List Json
  ofItems? : List Json → Option α
  put : α → List UInt8
  get? : List UInt8 → Option (α × List UInt8)

namespace Fields

variable {α β : Type}

def none : Fields Unit where
  names := []
  toItems _ := []
  ofItems?
    | [] => some ()
    | _ => .none
  put _ := []
  get? bs := some ((), bs)

/-- One more part in front. -/
def cons (name : String) (c : Codec α) (rest : Fields β) : Fields (α × β) where
  names := name :: rest.names
  toItems p := c.toJson p.1 :: rest.toItems p.2
  ofItems?
    | [] => .none
    | v :: vs => do
        let a ← c.ofJson? v
        let b ← rest.ofItems? vs
        some (a, b)
  put p := c.put p.1 ++ rest.put p.2
  get? bs := do
    let (a, bs) ← c.get? bs
    let (b, bs) ← rest.get? bs
    some ((a, b), bs)

def members? (ms : List (String × Json)) : List String → Option (List Json)
  | [] => some []
  | name :: names => do
      let v ← Json.member? name ms
      let vs ← members? ms names
      some (v :: vs)

def record (f : Fields α) : Codec α where
  toJson a := .object (f.names.zip (f.toItems a))
  ofJson?
    | .object ms => (members? ms f.names).bind f.ofItems?
    | .array vs => f.ofItems? vs
    | _ => .none
  put := f.put
  get? := f.get?

def tuple (f : Fields α) : Codec α where
  toJson a := .array (f.toItems a)
  ofJson?
    | .array vs => f.ofItems? vs
    | _ => .none
  put := f.put
  get? := f.get?

end Fields

end PlonkKzg
