import PlonkKzg.Field.Fq12

/-!
# Bytes that write an element

Every element has one encoding: what the readers accept are the bytes of the element, with
anything behind them.

* `splitBytes?_eq_some_iff` — a field of fixed width at the head of a byte list;
* `Residue.toBytes_of_ofBytes?` — the bytes of a residue that was read;
* `Fq.ofBytes?_eq_some_iff`, `Fq2.ofBytes?_eq_some_iff`, `Fq6.ofBytes?_eq_some_iff`,
  `Fq12.ofBytes?_eq_some_iff` — what the readers of the fields accept;
* `Fq6.toBytes_length`, `Fq12.toBytes_length` — how many bytes there are.
-/

namespace PlonkKzg

/-- Splitting off `k` bytes undoes appending to `k` bytes. -/
theorem splitBytes?_eq_some_iff {k : Nat} {bs front rest : List UInt8} :
    splitBytes? k bs = some (front, rest) ↔ front.length = k ∧ front ++ rest = bs := by
  constructor
  · intro h
    unfold splitBytes? at h
    split at h
    · rename_i hle
      cases h
      exact ⟨List.length_take_of_le hle, List.take_append_drop k bs⟩
    · cases h
  · rintro ⟨rfl, rfl⟩
    exact splitBytes?_append front rest

theorem Residue.toBytes_of_ofBytes? {m : Nat} {bs : List UInt8} {a : Residue m}
    (h : Residue.ofBytes? m bs = some a) : a.toBytes bs.length = bs := by
  rw [Residue.toBytes, ← Residue.ofBytes?_eq_some_iff.1 h, littleEndian_ofLittleEndian]

/-- What reads as an element is its encoding, followed by what is left. -/
theorem Fq.ofBytes?_eq_some_iff {bs rest : List UInt8} {a : Fq} :
    Fq.ofBytes? bs = some (a, rest) ↔ a.toBytes ++ rest = bs := by
  constructor
  · intro h
    simp only [ofBytes?, Option.bind_eq_bind, Option.bind_eq_some_iff, Option.some.injEq,
      Prod.mk.injEq, Prod.exists] at h
    obtain ⟨front, _, hsplit, _, hread, rfl, rfl⟩ := h
    obtain ⟨hlength, happend⟩ := splitBytes?_eq_some_iff.1 hsplit
    rw [toBytes, ← hlength, Residue.toBytes_of_ofBytes? hread, happend]
  · rintro rfl
    exact ofBytes?_toBytes a rest

theorem Fq2.ofBytes?_eq_some_iff {bs rest : List UInt8} {a : Fq2} :
    Fq2.ofBytes? bs = some (a, rest) ↔ a.toBytes ++ rest = bs := by
  constructor
  · intro h
    simp only [ofBytes?, Option.bind_eq_bind, Option.bind_eq_some_iff, Option.some.injEq,
      Prod.mk.injEq, Prod.exists, Fq.ofBytes?_eq_some_iff] at h
    obtain ⟨c0, _, rfl, c1, _, rfl, rfl, rfl⟩ := h
    simp only [toBytes, List.append_assoc]
  · rintro rfl
    exact ofBytes?_toBytes a rest

theorem Fq6.ofBytes?_eq_some_iff {bs rest : List UInt8} {a : Fq6} :
    Fq6.ofBytes? bs = some (a, rest) ↔ a.toBytes ++ rest = bs := by
  constructor
  · intro h
    simp only [ofBytes?, Option.bind_eq_bind, Option.bind_eq_some_iff, Option.some.injEq,
      Prod.mk.injEq, Prod.exists, Fq2.ofBytes?_eq_some_iff] at h
    obtain ⟨c0, _, rfl, c1, _, rfl, c2, _, rfl, rfl, rfl⟩ := h
    simp only [toBytes, List.append_assoc]
  · rintro rfl
    exact ofBytes?_toBytes a rest

/-- The same at the top of the tower: the encoding is canonical. -/
theorem Fq12.ofBytes?_eq_some_iff {bs rest : List UInt8} {a : Fq12} :
    Fq12.ofBytes? bs = some (a, rest) ↔ a.toBytes ++ rest = bs := by
  constructor
  · intro h
    simp only [ofBytes?, Option.bind_eq_bind, Option.bind_eq_some_iff, Option.some.injEq,
      Prod.mk.injEq, Prod.exists, Fq6.ofBytes?_eq_some_iff] at h
    obtain ⟨c0, _, rfl, c1, _, rfl, rfl, rfl⟩ := h
    simp only [toBytes, List.append_assoc]
  · rintro rfl
    exact ofBytes?_toBytes a rest

theorem Fq6.toBytes_length (a : Fq6) : a.toBytes.length = 192 := by
  simp only [toBytes, List.length_append, Fq2.toBytes_length]
  rfl

theorem Fq12.toBytes_length (a : Fq12) : a.toBytes.length = byteLength := by
  simp only [toBytes, List.length_append, Fq6.toBytes_length]
  rfl

end PlonkKzg
