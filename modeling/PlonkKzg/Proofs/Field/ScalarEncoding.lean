import Mathlib.Data.Nat.Digits.Defs
import PlonkKzg.Field.Scalar

/-!
# Bytes that write a scalar

At most 32 bytes are read, and the high bytes that are missing count as zero. So a scalar is read
from its 32 bytes, and from what is left of them without some of the zeros at their end.

* `ofLittleEndian_eq_ofDigits` — bytes are digits to the base 256;
* `ofLittleEndian_append_zeros`, `littleEndian_of_length_le` — zeros at the end do not count;
* `append_replicate_eq_iff` — lists that are equal once both are filled up;
* `Scalar.ofBytes?_eq_ok_iff`, `Scalar.ofBytes?_eq_error_iff` — what is read, and what is refused;
* `Scalar.toBytes_of_ofBytes?`, `Scalar.toBytes_injective` — the bytes of what was read, and of
  different scalars;
* `Scalar.eq_iff_of_ofBytes?` — when two byte strings write the same scalar;
* `Scalar.encoding_zero_extended` — the encoding of scalars.
-/

namespace PlonkKzg

/-! ### Zeros at the end -/

theorem ofLittleEndian_eq_ofDigits (bs : List UInt8) :
    ofLittleEndian bs = Nat.ofDigits 256 (bs.map UInt8.toNat) := by
  induction bs with
  | nil => rfl
  | cons b bs ih => rw [ofLittleEndian, ih, List.map_cons, Nat.ofDigits_cons]

/-- Zeros at the high end do not change the number. -/
theorem ofLittleEndian_append_zeros (bs : List UInt8) (n : Nat) :
    ofLittleEndian (bs ++ List.replicate n 0) = ofLittleEndian bs := by
  rw [ofLittleEndian_eq_ofDigits, ofLittleEndian_eq_ofDigits, List.map_append, List.map_replicate]
  exact Nat.ofDigits_append_replicate_zero _

/-- Fewer bytes than are asked for come back with zeros behind them. -/
theorem littleEndian_of_length_le {k : Nat} {bs : List UInt8} (h : bs.length ≤ k) :
    littleEndian k (ofLittleEndian bs) = bs ++ List.replicate (k - bs.length) 0 := by
  have hlength : (bs ++ List.replicate (k - bs.length) 0).length = k := by
    rw [List.length_append, List.length_replicate, Nat.add_sub_cancel' h]
  have hread := littleEndian_ofLittleEndian (bs ++ List.replicate (k - bs.length) 0)
  rwa [hlength, ofLittleEndian_append_zeros] at hread

section

variable {α : Type} {a : α} {as bs : List α} {m n : Nat}

/-- Two lists with a common padding differ by padding. -/
theorem exists_eq_append_replicate (h : as ++ List.replicate m a = bs ++ List.replicate n a)
    (hle : as.length ≤ bs.length) : ∃ k, bs = as ++ List.replicate k a := by
  have hlength := congrArg List.length h
  simp only [List.length_append, List.length_replicate] at hlength
  have hm : m = bs.length - as.length + n := by omega
  rw [hm, ← List.replicate_append_replicate, ← List.append_assoc] at h
  exact ⟨bs.length - as.length, (List.append_cancel_right h).symm⟩

theorem append_replicate_append {k : Nat}
    (hlength : as.length + m = (as ++ List.replicate k a).length + n) :
    as ++ List.replicate m a = as ++ List.replicate k a ++ List.replicate n a := by
  rw [List.length_append, List.length_replicate] at hlength
  have hm : m = k + n := by omega
  rw [hm, List.append_assoc, List.replicate_append_replicate]

/-- Two lists that are filled up to one length are equal if one of them is the other filled up. -/
theorem append_replicate_eq_iff (hlength : as.length + m = bs.length + n) :
    as ++ List.replicate m a = bs ++ List.replicate n a ↔
      ∃ k, bs = as ++ List.replicate k a ∨ as = bs ++ List.replicate k a := by
  constructor
  · intro h
    rcases Nat.le_total as.length bs.length with hle | hle
    · obtain ⟨k, hk⟩ := exists_eq_append_replicate h hle
      exact ⟨k, .inl hk⟩
    · obtain ⟨k, hk⟩ := exists_eq_append_replicate h.symm hle
      exact ⟨k, .inr hk⟩
  · rintro ⟨k, rfl | rfl⟩
    · exact append_replicate_append hlength
    · exact (append_replicate_append hlength.symm).symm

end

/-! ### Scalars -/

namespace Scalar

/-- Reading asks for at most the full length and a number below the order. -/
theorem ofBytes?_eq_ok_iff {bs : List UInt8} {x : Scalar} :
    ofBytes? bs = .ok x ↔ bs.length ≤ byteLength ∧ ofLittleEndian bs = x.val := by
  rw [← Residue.ofBytes?_eq_some_iff]
  unfold ofBytes?
  split
  · rename_i hlength
    cases Residue.ofBytes? order bs <;> simp [hlength]
  · rename_i hlength
    simp [hlength]

/-- Bytes are refused if there are too many or their number is too large. -/
theorem ofBytes?_eq_error_iff {bs : List UInt8} :
    ofBytes? bs = .error .undecodable ↔
      ¬(bs.length ≤ byteLength ∧ ofLittleEndian bs < order) := by
  unfold ofBytes? Residue.ofBytes?
  by_cases hlength : bs.length ≤ byteLength
  · by_cases hlt : ofLittleEndian bs < order <;> simp [hlength, hlt]
  · simp [hlength]

/-- Writing what was read pads it to the full length. -/
theorem toBytes_of_ofBytes? {bs : List UInt8} {x : Scalar} (h : ofBytes? bs = .ok x) :
    toBytes x = bs ++ List.replicate (byteLength - bs.length) 0 := by
  obtain ⟨hlength, hvalue⟩ := ofBytes?_eq_ok_iff.1 h
  rw [toBytes, Residue.toBytes, ← hvalue, littleEndian_of_length_le hlength]

theorem toBytes_injective : Function.Injective toBytes := by
  intro x y h
  have hread := ofBytes?_toBytes x
  rw [h, ofBytes?_toBytes] at hread
  exact (Except.ok.inj hread).symm

/-- Two byte strings write the same scalar if one is the other with zeros behind it. -/
theorem eq_iff_of_ofBytes? {bs cs : List UInt8} {x y : Scalar} (hx : ofBytes? bs = .ok x)
    (hy : ofBytes? cs = .ok y) :
    x = y ↔ ∃ n, cs = bs ++ List.replicate n 0 ∨ bs = cs ++ List.replicate n 0 := by
  have hbs := (ofBytes?_eq_ok_iff.1 hx).1
  have hcs := (ofBytes?_eq_ok_iff.1 hy).1
  rw [← toBytes_injective.eq_iff, toBytes_of_ofBytes? hx, toBytes_of_ofBytes? hy]
  exact append_replicate_eq_iff (by omega)

/-- Exactly the bytes of numbers below the order are read, at most 32 of them, and the bytes of the
scalar are these with zeros behind them. -/
theorem encoding_zero_extended :
    (∀ (bs : List UInt8) (x : Scalar), ofBytes? bs = .ok x ↔
      bs.length ≤ 32 ∧ Nat.ofDigits 256 (bs.map UInt8.toNat) = x.val) ∧
    (∀ bs : List UInt8, ofBytes? bs = .error .undecodable ↔
      ¬(bs.length ≤ 32 ∧ Nat.ofDigits 256 (bs.map UInt8.toNat) < order)) ∧
    (∀ (bs : List UInt8) (x : Scalar), ofBytes? bs = .ok x →
      toBytes x = bs ++ List.replicate (32 - bs.length) 0) ∧
    (∀ x : Scalar, (toBytes x).length = 32 ∧ ofBytes? (toBytes x) = .ok x) ∧
    ∀ (bs cs : List UInt8) (x y : Scalar), ofBytes? bs = .ok x → ofBytes? cs = .ok y →
      (x = y ↔ ∃ n, cs = bs ++ List.replicate n 0 ∨ bs = cs ++ List.replicate n 0) := by
  refine ⟨?_, ?_, fun bs x h => toBytes_of_ofBytes? h, ?_,
    fun bs cs x y hx hy => eq_iff_of_ofBytes? hx hy⟩
  · intro bs x
    rw [← ofLittleEndian_eq_ofDigits]
    exact ofBytes?_eq_ok_iff
  · intro bs
    rw [← ofLittleEndian_eq_ofDigits]
    exact ofBytes?_eq_error_iff
  · intro x
    exact ⟨toBytes_length x, ofBytes?_toBytes x⟩

example : ofBytes? [7, 1] = ofBytes? [7, 1, 0, 0] := by rfl

end Scalar

end PlonkKzg
