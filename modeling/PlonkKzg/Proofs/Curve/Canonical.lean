import PlonkKzg.Proofs.Curve.Order
import PlonkKzg.Proofs.Field.Encoding

/-!
# Bytes that write a point

Every finite point of a group without points of order two has one encoding: the bytes that are read
as the point are the bytes of the point, with anything behind them. The point at infinity is read
from many bytes, as the coordinate in front of its flag is not looked at.

* `flagged_unflagged` — the last byte is put together again from the two bits and the rest;
* `CanonicalCoordinate` — what this needs of the field of the coordinates;
* `CurvePoint.compress_of_decompress?` — the bytes of a point that was read;
* `CurvePoint.readIf` — reading with a test of membership, which both groups do;
* `G1.ofBytes?_eq_ok_iff` — what is read as a finite point of the first pairing group;
* `G1.encoding_canonical` — points and encodings determine each other.
-/

namespace PlonkKzg

/-! ### Flags -/

theorem Flag.bits_of_ofBits? {n : Nat} {f : Flag} (h : Flag.ofBits? n = some f) : f.bits = n := by
  unfold Flag.ofBits? at h
  split at h <;> cases h <;> rfl

theorem unflagged_length (bs : List UInt8) : (unflagged bs).1.length = bs.length := by
  fun_induction unflagged bs with
  | case1 => rfl
  | case2 => rfl
  | case3 b c bs rest bits hrest ih =>
      rw [hrest] at ih
      simp only [List.length_cons] at ih ⊢
      omega

theorem flagged_cons (f : Flag) (b : UInt8) {bs : List UInt8} (h : bs ≠ []) :
    flagged f (b :: bs) = b :: flagged f bs := by
  obtain ⟨c, rest, rfl⟩ := List.exists_cons_of_ne_nil h
  rfl

/-- Putting back the flag that was taken off restores the bytes. -/
theorem flagged_unflagged {f : Flag} {bs : List UInt8} (h : f.bits = (unflagged bs).2) :
    flagged f (unflagged bs).1 = bs := by
  fun_induction unflagged bs with
  | case1 => rfl
  | case2 b =>
      have hb : b.toNat < 256 := b.toNat_lt
      have hbits : f.bits = b.toNat / 64 := h
      have hbyte : b.toNat % 64 % 256 % 64 + 64 * (b.toNat / 64) = b.toNat := by omega
      rw [flagged, hbits, UInt8.toNat_ofNat', hbyte, UInt8.ofNat_toNat]
  | case3 b c bs rest bits hrest ih =>
      rw [hrest] at ih
      have hne : rest ≠ [] := by
        have hlength := unflagged_length (c :: bs)
        rw [hrest] at hlength
        exact List.length_pos_iff.1 (hlength ▸ Nat.succ_pos bs.length)
      rw [flagged_cons f b hne, ih h]

/-! ### Points -/

/-- The bytes that are read as an element are its bytes and what follows them. -/
class CanonicalCoordinate (K : Type) [Field K] [Coordinate K] : Prop extends
    LawfulCoordinate K where
  toBytes_of_ofBytes? : ∀ {bs rest : List UInt8} {x : K},
    Coordinate.ofBytes? bs = some (x, rest) → Coordinate.toBytes x ++ rest = bs

namespace CurvePoint

variable {K : Type} [Field K] [DecidableEq K] [Coordinate K] [CanonicalCoordinate K] {b : K}

omit [Coordinate K] [CanonicalCoordinate K] in
/-- A point whose second coordinate is its own negative is its own negative. -/
theorem neg_eq_self {P : CurvePoint b} {x y : K} (hP : P.point = .affine x y) (hy : -y = y) :
    -P = P := by
  show ofPoint b P.point.neg = P
  rw [hP, Point.neg, hy, ← hP, ofPoint_point]

/-- The second coordinate that is chosen is the one asked for, unless the two are one. -/
theorem exists_of_ofAbscissa? {P : CurvePoint b} {x : K} {s : Bool}
    (h : ofAbscissa? b x s = some P) :
    ∃ y, P.point = .affine x y ∧ (Coordinate.larger y = s ∨ -y = y) := by
  rw [ofAbscissa?, Option.bind_eq_bind, Option.bind_eq_some_iff] at h
  obtain ⟨z, -, hP⟩ := h
  refine ⟨_, ofPoint?_eq_some_iff.1 hP, ?_⟩
  split
  · rename_i hz
    exact .inl hz
  · rename_i hz
    by_cases hsame : Coordinate.larger (-z) = Coordinate.larger z
    · have hneg := LawfulCoordinate.eq_neg_of_larger z hsame
      exact .inr (by rw [hneg, hneg])
    · exact .inl ((Bool.eq_not_of_ne hsame).trans (Bool.eq_not_of_ne (Ne.symm hz)).symm)

/-- The bytes of a finite point are a flagged coordinate. -/
theorem exists_of_decompress? {P : CurvePoint b} {bs : List UInt8}
    (h : decompress? b bs = some P) (hP : P ≠ 0) :
    ∃ (x : K) (s : Bool), ofAbscissa? b x s = some P ∧
      flagged (if s then .larger else .smaller) (Coordinate.toBytes x) =
        bs.take (Coordinate.width K) := by
  simp only [decompress?, Option.bind_eq_bind, Option.bind_eq_some_iff, Prod.exists] at h
  obtain ⟨front, rest, hsplit, f, hflag, x, tail, hread, hpoint⟩ := h
  obtain ⟨hlength, rfl⟩ := splitBytes?_eq_some_iff.1 hsplit
  have hbytes := CanonicalCoordinate.toBytes_of_ofBytes? hread
  -- the coordinate takes all bytes of the front, so nothing is left of it
  have htail : tail = [] := by
    have hcount := congrArg List.length hbytes
    rw [List.length_append, LawfulCoordinate.toBytes_length, unflagged_length, hlength] at hcount
    exact List.length_eq_zero_iff.1 (by omega)
  have hfront := flagged_unflagged (Flag.bits_of_ofBits? hflag)
  rw [htail, List.append_nil] at hbytes
  rw [List.take_left' hlength]
  rw [← hbytes] at hfront
  -- only the flag of infinity does not ask for a second coordinate
  cases f with
  | smaller => exact ⟨x, false, hpoint, hfront⟩
  | infinity => exact absurd (Option.some.inj hpoint).symm hP
  | larger => exact ⟨x, true, hpoint, hfront⟩

/-- What decompresses to a point is its compressed form. A point that is its own negative is left
out: both of its flags are read. -/
theorem compress_of_decompress? {P : CurvePoint b} {bs : List UInt8}
    (h : decompress? b bs = some P) (hzero : P ≠ 0) (hneg : -P ≠ P) :
    P.compress = bs.take (Coordinate.width K) := by
  obtain ⟨x, s, hread, hbytes⟩ := exists_of_decompress? h hzero
  obtain ⟨y, hP, hlarger | hy⟩ := exists_of_ofAbscissa? hread
  · simp only [compress, hP, hlarger, hbytes]
  · exact absurd (neg_eq_self hP hy) hneg

/-! ### Membership -/

/-- The point that the first bytes write, if it passes a test. -/
def readIf (b : K) (test : CurvePoint b → Bool) (bs : List UInt8) :
    Except AlgebraError (CurvePoint b) :=
  match decompress? b bs with
  | some P => if test P then .ok P else .error .undecodable
  | none => .error .undecodable

variable {test : CurvePoint b → Bool} {bs : List UInt8}

omit [CanonicalCoordinate K] in
/-- Reading with a test is decompression followed by the test. -/
theorem readIf_eq_ok_iff {P : CurvePoint b} :
    readIf b test bs = .ok P ↔ decompress? b bs = some P ∧ test P = true := by
  unfold readIf
  cases decompress? b bs with
  | none => simp
  | some Q => by_cases hQ : test Q = true <;> grind

omit [CanonicalCoordinate K] in
theorem readIf_eq_error {e : AlgebraError} (h : readIf b test bs = .error e) :
    e = .undecodable := by
  unfold readIf at h
  split at h
  · split at h <;> cases h
    rfl
  · cases h
    rfl

end CurvePoint

/-! ### The first pairing group -/

instance Fq.canonical : CanonicalCoordinate Fq where
  toBytes_of_ofBytes? h := Fq.ofBytes?_eq_some_iff.1 h

namespace G1

theorem neg_ne_self {P : G1} (hP : P ≠ 0) : -P ≠ P := by
  intro hneg
  exact add_self_ne_zero hP (neg_eq_iff_add_eq_zero.1 hneg)

theorem ofBytes?_eq_readIf (bs : List UInt8) :
    ofBytes? bs = CurvePoint.readIf G1.b inSubgroup bs := by
  unfold ofBytes? CurvePoint.readIf
  cases CurvePoint.decompress? G1.b bs <;> rfl

/-- What is read as a finite point are the bytes of the point and anything behind them. -/
theorem ofBytes?_eq_ok_iff {bs : List UInt8} {P : G1} (hP : P ≠ 0) :
    ofBytes? bs = .ok P ↔ toBytes P = bs.take byteLength := by
  constructor
  · intro h
    rw [ofBytes?_eq_readIf, CurvePoint.readIf_eq_ok_iff] at h
    exact CurvePoint.compress_of_decompress? h.1 hP (neg_ne_self hP)
  · intro h
    rw [← List.take_append_drop byteLength bs, ← h]
    exact ofBytes?_toBytes P _

theorem toBytes_length (P : G1) : (toBytes P).length = byteLength := P.compress_length

/-- Every point but infinity has exactly one encoding of the full length. -/
theorem existsUnique_bytes {P : G1} (hP : P ≠ 0) :
    ∃! bs : List UInt8, bs.length = byteLength ∧ ofBytes? bs = .ok P := by
  have hread := ofBytes?_toBytes P []
  rw [List.append_nil] at hread
  refine ⟨toBytes P, ⟨toBytes_length P, hread⟩, ?_⟩
  rintro bs ⟨hlength, h⟩
  rw [(ofBytes?_eq_ok_iff hP).1 h, List.take_of_length_le hlength.le]

theorem ofBytes?_eq_error {bs : List UInt8} {e : AlgebraError} (h : ofBytes? bs = .error e) :
    e = .undecodable :=
  CurvePoint.readIf_eq_error (ofBytes?_eq_readIf bs ▸ h)

/-- The encoding has 32 bytes and is read as the point whatever follows it. What is read is a point
of the curve and of the group, and a finite point is read from its own bytes only. -/
theorem encoding_canonical :
    (∀ (P : G1) (t : List UInt8),
      (toBytes P).length = 32 ∧ ofBytes? (toBytes P ++ t) = .ok P) ∧
    (∀ (bs : List UInt8) (P : G1), ofBytes? bs = .ok P →
      P.point.OnCurve G1.b ∧ Scalar.order • P = 0 ∧ (P ≠ 0 → toBytes P = bs.take 32)) ∧
    Function.Injective toBytes ∧
    (∀ P : G1, P ≠ 0 → ∃! bs : List UInt8, bs.length = 32 ∧ ofBytes? bs = .ok P) ∧
    ∀ (bs : List UInt8) (e : AlgebraError), ofBytes? bs = .error e → e = .undecodable := by
  refine ⟨?_, ?_, toBytes_injective, fun P hP => existsUnique_bytes hP,
    fun bs e h => ofBytes?_eq_error h⟩
  · intro P t
    exact ⟨toBytes_length P, ofBytes?_toBytes P t⟩
  · intro bs P h
    exact ⟨P.onCurve, order_nsmul P, fun hP => (ofBytes?_eq_ok_iff hP).1 h⟩

end G1

end PlonkKzg
