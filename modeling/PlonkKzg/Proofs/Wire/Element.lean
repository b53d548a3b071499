import PlonkKzg.Proofs.Curve.Order
import PlonkKzg.Proofs.Curve.Twist
import PlonkKzg.Proofs.Field.Encoding
import PlonkKzg.Proofs.Text.Base64
import PlonkKzg.Proofs.Wire.Codec
import PlonkKzg.Wire.Element

/-!
# Encoded elements are read as they were written

The text and the binary form of an element wrap its bytes, so they give the element back if its
bytes do.

* `Encoded.ofJson_text`, `Encoded.ofBinary_toBinary` — what the texts and the binary form of a value
  are read as;
* `Encoded.codec_roundTrips` — from the bytes to both encodings;
* `G1.encoded_length_lt`, `G1.ofBytes?_encoded` and the same for the other types — the bytes of an
  element can be counted by a word, and they are read as the element;
* `Scalar.codec_roundTrips`, `G1.codec_roundTrips` — every value;
* `G2.codec_roundTrips` — the points of the group, as points outside of it are refused.
-/

namespace PlonkKzg

namespace Encoded

variable {α : Type} [Encoded α] {a : α}

theorem ofRaw_toBytes (h : ofBytes? (toBytes a) = .ok a) : ofRaw (toBytes a) = .ok a := by
  simp only [ofRaw, h]

/-- The bytes behind their number are split off again. -/
theorem lengthPrefixed?_toBinary (hlen : (toBytes a).length < UInt64.size) (rest : List UInt8) :
    lengthPrefixed? (toBinary a ++ rest) = some (toBytes a, rest) := by
  have hn : (UInt64.ofNat (toBytes a).length).toNat = (toBytes a).length := by
    rw [UInt64.toNat_ofNat', Nat.mod_eq_of_lt hlen]
  simp only [lengthPrefixed?, toBinary, List.append_assoc, Codec.getWord?_putWord, hn,
    splitBytes?_append, Option.bind_eq_bind, Option.bind_some]

/-- A text of the bytes of a value, whatever its padding. -/
theorem ofJson_text (h : ofBytes? (toBytes a) = .ok a) {s : String}
    (hs : Base64.decode? s = some (toBytes a)) : ofJson (.text s) = .ok a := by
  simp only [ofJson, hs, ofRaw_toBytes h]

/-- The binary form reads back and leaves what follows it. -/
theorem ofBinary_toBinary (h : ofBytes? (toBytes a) = .ok a)
    (hlen : (toBytes a).length < UInt64.size) (rest : List UInt8) :
    ofBinary (toBinary a ++ rest) = .ok (a, rest) := by
  simp only [ofBinary, lengthPrefixed?_toBinary hlen, ofRaw_toBytes h, bind, Except.bind, pure,
    Except.pure]

/-- An encoding that reads back gives a codec that reads back. -/
theorem codec_roundTrips (h : ofBytes? (toBytes a) = .ok a)
    (hlen : (toBytes a).length < UInt64.size) : (codec α).RoundTrips a where
  json := by
    simp only [codec, toText, ofJson_text h (Base64.decode?_encode _), Except.toOption]
  binary rest := by
    simp only [codec, ofBinary_toBinary h hlen, Except.toOption]

end Encoded

/-! ### The types of elements -/

theorem Scalar.encoded_length_lt (a : Scalar) : (Encoded.toBytes a).length < UInt64.size := by
  show a.toBytes.length < UInt64.size
  rw [Scalar.toBytes_length]
  decide

theorem G1.encoded_length_lt (P : G1) : (Encoded.toBytes P).length < UInt64.size := by
  have hlen : (G1.toBytes P).length = 32 := P.compress_length
  show (G1.toBytes P).length < UInt64.size
  rw [hlen]
  decide

theorem G2.encoded_length_lt (Q : G2) : (Encoded.toBytes Q).length < UInt64.size := by
  have hlen : (G2.toBytes Q).length = 64 := Q.compress_length
  show (G2.toBytes Q).length < UInt64.size
  rw [hlen]
  decide

theorem Gt.encoded_length_lt (v : Gt) : (Encoded.toBytes v).length < UInt64.size := by
  have hlen : v.toBytes.length = 384 := Fq12.toBytes_length v.value
  show v.toBytes.length < UInt64.size
  rw [hlen]
  decide

theorem G1.ofBytes?_encoded (P : G1) : Encoded.ofBytes? (Encoded.toBytes P) = .ok P := by
  have hread := G1.ofBytes?_toBytes P []
  rwa [List.append_nil] at hread

/-- For the second group the point must lie in the subgroup, which decoding tests. -/
theorem G2.ofBytes?_encoded {Q : G2} (h : G2.inSubgroup Q) :
    Encoded.ofBytes? (Encoded.toBytes Q) = .ok Q := by
  have hread := G2.ofBytes?_toBytes h []
  rwa [List.append_nil] at hread

theorem Gt.ofBytes?_encoded (v : Gt) : Encoded.ofBytes? (Encoded.toBytes v) = .ok v := by
  have hread := v.ofBytes?_toBytes []
  rwa [List.append_nil] at hread

theorem Scalar.codec_roundTrips (a : Scalar) : (Encoded.codec Scalar).RoundTrips a :=
  Encoded.codec_roundTrips a.ofBytes?_toBytes a.encoded_length_lt

theorem G1.codec_roundTrips (P : G1) : (Encoded.codec G1).RoundTrips P :=
  Encoded.codec_roundTrips (G1.ofBytes?_encoded P) (G1.encoded_length_lt P)

theorem G2.codec_roundTrips {Q : G2} (h : G2.inSubgroup Q) : (Encoded.codec G2).RoundTrips Q :=
  Encoded.codec_roundTrips (G2.ofBytes?_encoded h) (G2.encoded_length_lt Q)

end PlonkKzg
