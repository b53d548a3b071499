import PlonkKzg.Wire.Codec

/-!
# Laws of codecs

A sequence of parts round-trips if its parts do, as long as no two parts share a name. What
round-trips has different encodings for different values, and the bytes of a value never are the
start of the bytes of another one.

* `Fields.RoundTrips` — the items and the bytes of a sequence of parts give the value back;
* `Fields.none_roundTrips`, `Fields.cons_roundTrips` — a sequence from its parts;
* `Fields.record_roundTrips`, `Fields.tuple_roundTrips` — objects and arrays of parts;
* `Codec.RoundTrips.toJson_inj`, `Codec.RoundTrips.prefix_free` — what follows for two values;
* `Codec.Faithful` — all of this for the values of a type that are valid.
-/

namespace PlonkKzg

variable {α β : Type}

namespace Fields

@[simp] theorem names_none : none.names = [] := rfl

@[simp] theorem names_cons (name : String) (c : Codec α) (f : Fields β) :
    (cons name c f).names = name :: f.names := rfl

/-- Both encodings of the parts give the value back, and each part has a name. -/
structure RoundTrips (f : Fields α) (a : α) : Prop where
  length : (f.toItems a).length = f.names.length
  items : f.ofItems? (f.toItems a) = some a
  binary (rest : List UInt8) : f.get? (f.put a ++ rest) = some (a, rest)

/-- The record without fields reads back. -/
theorem none_roundTrips (u : Unit) : none.RoundTrips u where
  length := rfl
  items := rfl
  binary _ := rfl

/-- One more field that reads back keeps the fields reading back. -/
theorem cons_roundTrips {name : String} {c : Codec α} {f : Fields β} {p : α × β}
    (hc : c.RoundTrips p.1) (hf : f.RoundTrips p.2) : (cons name c f).RoundTrips p where
  length := congrArg Nat.succ hf.length
  items := by
    simp only [cons, hc.json, hf.items, Option.bind_eq_bind, Option.bind_some]
  binary rest := by
    simp only [cons, List.append_assoc, hc.binary, hf.binary, Option.bind_eq_bind,
      Option.bind_some]

/-! ### Objects -/

/-- A member of another name does not matter. -/
theorem members?_cons_of_notMem {name : String} {v : Json} {ms : List (String × Json)}
    {names : List String} (h : name ∉ names) :
    members? ((name, v) :: ms) names = members? ms names := by
  induction names with
  | nil => rfl
  | cons n names ih =>
      rw [List.mem_cons, not_or] at h
      have hne : (name == n) = false := beq_false_of_ne h.1
      rw [members?, members?, ih h.2, Json.member?, Json.member?, List.find?_cons, hne]

/-- Members are found under their names when no two names agree. -/
theorem members?_zip {names : List String} {vs : List Json} (hnodup : names.Nodup)
    (hlen : vs.length = names.length) : members? (names.zip vs) names = some vs := by
  induction names generalizing vs with
  | nil =>
      obtain rfl := List.length_eq_zero_iff.1 hlen
      rfl
  | cons name names ih =>
      obtain ⟨hname, hrest⟩ := List.nodup_cons.1 hnodup
      cases vs with
      | nil => cases hlen
      | cons v vs =>
          have hfirst : Json.member? name ((name, v) :: names.zip vs) = some v := by
            simp [Json.member?]
          simp only [List.zip_cons_cons, members?, hfirst, members?_cons_of_notMem hname,
            ih hrest (Nat.succ.inj hlen), Option.bind_eq_bind, Option.bind_some]

/-- A record of distinct names reads back from an object. -/
theorem record_roundTrips {f : Fields α} {a : α} (hnodup : f.names.Nodup) (h : f.RoundTrips a) :
    f.record.RoundTrips a where
  json := by
    show (members? (f.names.zip (f.toItems a)) f.names).bind f.ofItems? = some a
    rw [members?_zip hnodup h.length, Option.bind_some, h.items]
  binary := h.binary

/-- The same fields read back from an array. -/
theorem tuple_roundTrips {f : Fields α} {a : α} (h : f.RoundTrips a) : f.tuple.RoundTrips a where
  json := h.items
  binary := h.binary

end Fields

namespace Codec

variable {c : Codec α} {a b : α}

/-! ### Two values -/

/-- Values that read back are determined by their text. -/
theorem RoundTrips.toJson_inj (ha : c.RoundTrips a) (hb : c.RoundTrips b)
    (h : c.toJson a = c.toJson b) : a = b := by
  have hread := ha.json
  rw [h, hb.json] at hread
  exact (Option.some.inj hread).symm

/-- Reading the longer bytes stops where the shorter ones end. -/
theorem RoundTrips.prefix_free (ha : c.RoundTrips a) (hb : c.RoundTrips b) {rest : List UInt8}
    (h : c.put b = c.put a ++ rest) : a = b ∧ rest = [] := by
  have hread := ha.binary rest
  rw [← h, ← List.append_nil (c.put b), hb.binary] at hread
  obtain ⟨hvalue, hrest⟩ := Prod.mk.inj (Option.some.inj hread)
  exact ⟨hvalue.symm, hrest.symm⟩

/-- The encodings of the valid values of a type give them back, the bytes whatever follows them; so
they tell the values apart, and no bytes are the start of others. -/
structure Faithful (c : Codec α) (valid : α → Prop) : Prop where
  json : ∀ a, valid a → c.ofJson? (c.toJson a) = some a
  binary : ∀ a, valid a → ∀ rest, c.get? (c.put a ++ rest) = some (a, rest)
  toJson_inj : ∀ a b, valid a → valid b → c.toJson a = c.toJson b → a = b
  put_inj : ∀ a b, valid a → valid b → c.put a = c.put b → a = b
  prefix_free : ∀ a b, valid a → valid b → c.put a <+: c.put b → a = b

/-- Reading back is all that a faithful codec needs. -/
theorem faithful_of_roundTrips {valid : α → Prop} (h : ∀ a, valid a → c.RoundTrips a) :
    c.Faithful valid where
  json a ha := (h a ha).json
  binary a ha := (h a ha).binary
  toJson_inj a b ha hb := (h a ha).toJson_inj (h b hb)
  put_inj a b ha hb heq := by
    have hwhole : c.put b = c.put a ++ [] := by rw [List.append_nil, heq]
    exact ((h a ha).prefix_free (h b hb) hwhole).1
  prefix_free a b ha hb := by
    rintro ⟨rest, heq⟩
    exact ((h a ha).prefix_free (h b hb) heq.symm).1

end Codec

end PlonkKzg
