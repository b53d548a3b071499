import PlonkKzg.Proofs.Wire.Element

/-!
# Nothing is lost in a wrapper

The text of bytes gives the bytes back, and all texts that do have the same symbols. An element is
written as the text of its bytes, or as the bytes behind their number, and both are read as the
element if its bytes are.

* `Json.quote_encode` — the text of bytes stands in quotes as it is;
* `Encoded.ReadBack`, `Encoded.readBack` — both forms of a value, and what they are read as;
* `Encoded.wrappers_lossless` — bytes and the values of all types of elements.
-/

namespace PlonkKzg

/-- Neither a symbol nor the padding character is escaped. -/
theorem Json.flatMap_escapeChar (bs : List UInt8) :
    (Base64.encodeChars bs).flatMap escapeChar = Base64.encodeChars bs := by
  have hplain := Base64.forall_mem_encodeChars (P := fun c => escapeChar c = [c]) (by decide)
    (by decide) bs
  rw [List.flatMap_congr hplain, List.flatMap_singleton']

theorem Json.quote_encode (bs : List UInt8) :
    quote (Base64.encode bs) = "\"" ++ Base64.encode bs ++ "\"" := by
  rw [quote, Base64.encode, String.toList_ofList, flatMap_escapeChar]

namespace Encoded

variable {α : Type} [Encoded α]

/-- The written forms of a value are its bytes in quotes and its bytes behind their number. Both are
read as the value, the text with any padding and the bytes whatever follows them. -/
structure ReadBack (a : α) : Prop where
  render : ((codec α).toJson a).render = "\"" ++ Base64.encode (toBytes a) ++ "\""
  text : ∀ s, Base64.decode? s = some (toBytes a) → ofJson (.text s) = .ok a
  json : ofJson ((codec α).toJson a) = .ok a
  put : (codec α).put a = littleEndian 8 (toBytes a).length ++ toBytes a
  binary : ∀ rest, ofBinary ((codec α).put a ++ rest) = .ok (a, rest)

/-- An encoding that reads back does so through both wrappers. -/
theorem readBack {a : α} (h : ofBytes? (toBytes a) = .ok a)
    (hlen : (toBytes a).length < UInt64.size) : ReadBack a where
  render := Json.quote_encode (toBytes a)
  text _ hs := ofJson_text h hs
  json := ofJson_text h (Base64.decode?_encode (toBytes a))
  put := by
    show Codec.putWord (UInt64.ofNat (toBytes a).length) ++ toBytes a = _
    rw [Codec.putWord, UInt64.toNat_ofNat_of_lt' hlen]
  binary := ofBinary_toBinary h hlen

/-- Bytes are read from their text, and texts that are read alike differ in their padding only. Each
value that is read from its bytes is read from both of its written forms, and every value is but the
points of the twisted curve outside the group. -/
theorem wrappers_lossless :
    (∀ bs : List UInt8, Base64.decode? (Base64.encode bs) = some bs) ∧
    (∀ (s : String) (bs : List UInt8), Base64.decode? s = some bs →
      Base64.bare s.toList = Base64.bare (Base64.encode bs).toList) ∧
    (∀ (s : String) (bs : List UInt8), Base64.decode? s = some bs ↔
      ∃ k ≤ Base64.paddingLength bs,
        s.toList = Base64.bare (Base64.encode bs).toList ++ List.replicate k '=') ∧
    (∀ a : Scalar, ReadBack a) ∧
    (∀ P : G1, ReadBack P) ∧
    (∀ Q : G2, ofBytes? (toBytes Q) = .ok Q → ReadBack Q) ∧
    ∀ v : Gt, ReadBack v := by
  refine ⟨Base64.decode?_encode, fun s bs h => Base64.bare_eq_of_decode? h,
    fun s bs => Base64.decode?_eq_some_iff, ?_, ?_, ?_, ?_⟩
  · intro a
    exact readBack a.ofBytes?_toBytes a.encoded_length_lt
  · intro P
    exact readBack (G1.ofBytes?_encoded P) (G1.encoded_length_lt P)
  · intro Q h
    exact readBack h (G2.encoded_length_lt Q)
  · intro v
    exact readBack (Gt.ofBytes?_encoded v) v.encoded_length_lt

end Encoded

end PlonkKzg
