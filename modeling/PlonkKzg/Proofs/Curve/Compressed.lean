import Mathlib.SetTheory.Cardinal.Finite
import PlonkKzg.Curve.G1
import PlonkKzg.Proofs.Field.BaseField

/-!
# Reading compressed points

The bytes of a point are read as the point, so different points have different bytes.

* `unflagged_flagged` — the two bits and the coordinate come apart again;
* `LawfulCoordinate` — what this needs of the field of the coordinates;
* `CurvePoint.decompress?_compress` — the bytes of a point write that point;
* `CurvePoint.card_le` — a bound on the number of points;
* `Fq.sqrt?_mul_self` — a square has a root, which is one of two;
* `G1.toBytes_injective` — the bytes of a point of the first pairing group tell which point it is.
-/

namespace PlonkKzg

/-- The last byte of a number is its highest digit. -/
theorem toNat_of_getLast?_littleEndian {k n : Nat} {b : UInt8}
    (h : (littleEndian (k + 1) n).getLast? = some b) : b.toNat = n / 256 ^ k % 256 := by
  induction k generalizing n with
  | zero =>
      obtain rfl := Option.some.inj h
      simp [littleEndian]
  | succ k ih =>
      rw [littleEndian, littleEndian, List.getLast?_cons_cons, ← littleEndian] at h
      rw [ih h, Nat.div_div_eq_div_mul, Nat.pow_succ']

/-! ### Flags -/

/-- A byte below 64 has room for a flag above it. -/
theorem unflagged_flagged (f : Flag) {bs : List UInt8} (hne : bs ≠ [])
    (hlast : ∀ b, bs.getLast? = some b → b.toNat < 64) : unflagged (flagged f bs) = (bs, f.bits) := by
  fun_induction flagged f bs with
  | case1 => exact absurd rfl hne
  | case2 b =>
      have hb := hlast b rfl
      have hbits : f.bits ≤ 2 := by cases f <;> decide
      have hlow : (b.toNat % 64 + 64 * f.bits) % 256 % 64 = b.toNat := by omega
      have hhigh : (b.toNat % 64 + 64 * f.bits) % 256 / 64 = f.bits := by omega
      simp [unflagged, hlow, hhigh]
  | case3 b c bs ih =>
      have hrest := ih (List.cons_ne_nil c bs) fun b' hb' => hlast b' (by rwa [List.getLast?_cons_cons])
      obtain ⟨c', bs', hcons⟩ := List.exists_cons_of_ne_nil (l := flagged f (c :: bs)) (by
        rw [← List.length_pos_iff, flagged_length]
        exact Nat.succ_pos bs.length)
      rw [hcons] at hrest ⊢
      rw [unflagged, hrest]

/-! ### Points -/

/-- The bytes of an element have a fixed number and leave two bits free, reading them gives the
element, a square has one of its two roots as its root, and of these only one is larger. -/
class LawfulCoordinate (K : Type) [Field K] [Coordinate K] : Prop where
  toBytes_length : ∀ x : K, (Coordinate.toBytes x).length = Coordinate.width K
  width_pos : 0 < Coordinate.width K
  last_lt : ∀ (x : K) (b : UInt8), (Coordinate.toBytes x).getLast? = some b → b.toNat < 64
  ofBytes?_toBytes : ∀ x : K, Coordinate.ofBytes? (Coordinate.toBytes x) = some (x, [])
  sqrt?_mul_self : ∀ y : K, ∃ z, Coordinate.sqrt? (y * y) = some z ∧ (z = y ∨ z = -y)
  eq_neg_of_larger : ∀ y : K, Coordinate.larger (-y) = Coordinate.larger y → -y = y

namespace CurvePoint

variable {K : Type} [Field K] [DecidableEq K] [Coordinate K] [LawfulCoordinate K] {b : K}

/-- Of the two roots the flag tells which one it was. -/
theorem ofAbscissa?_eq_some {P : CurvePoint b} {x y : K} (hP : P.point = .affine x y) :
    ofAbscissa? b x (Coordinate.larger y) = some P := by
  have hcurve : y * y = Point.cubic b x := by
    have honCurve := P.onCurve
    rwa [hP] at honCurve
  obtain ⟨z, hz, hcases⟩ := LawfulCoordinate.sqrt?_mul_self y
  have hroot : (if Coordinate.larger z = Coordinate.larger y then z else -z) = y := by
    rcases hcases with rfl | rfl
    · exact if_pos rfl
    · split
      · rename_i hlarger
        exact LawfulCoordinate.eq_neg_of_larger y hlarger
      · exact neg_neg y
  rw [hcurve] at hz
  rw [ofAbscissa?, hz, Option.bind_eq_bind, Option.bind_some, hroot, ofPoint?_eq_some_iff, hP]

/-- Flag and coordinate are read as they were written, whatever follows them. -/
theorem decompress?_flagged (b : K) (f : Flag) (x : K) (rest : List UInt8) :
    decompress? b (flagged f (Coordinate.toBytes x) ++ rest) =
      match f with
      | .infinity => some 0
      | .larger => ofAbscissa? b x true
      | .smaller => ofAbscissa? b x false := by
  have hlength := LawfulCoordinate.toBytes_length x
  have hne : Coordinate.toBytes x ≠ [] := by
    rw [← List.length_pos_iff, hlength]
    exact LawfulCoordinate.width_pos
  have hsplit := splitBytes?_append (flagged f (Coordinate.toBytes x)) rest
  rw [flagged_length, hlength] at hsplit
  cases f <;> simp only [decompress?, hsplit, unflagged_flagged _ hne (LawfulCoordinate.last_lt x),
    Flag.ofBits?_bits, LawfulCoordinate.ofBytes?_toBytes, Option.bind_eq_bind, Option.bind_some]

/-- The bytes of a point, and whatever follows them, write that point. -/
theorem decompress?_compress (P : CurvePoint b) (rest : List UInt8) :
    decompress? b (P.compress ++ rest) = some P := by
  cases hP : P.point with
  | infinity =>
      simp only [compress, hP, decompress?_flagged]
      exact congrArg some (CurvePoint.ext hP.symm)
  | affine x y =>
      have hroot := ofAbscissa?_eq_some hP
      simp only [compress, hP, decompress?_flagged]
      cases hlarger : Coordinate.larger y <;> rw [hlarger] at hroot <;> exact hroot

omit [DecidableEq K] in
theorem compress_length (P : CurvePoint b) : P.compress.length = Coordinate.width K := by
  cases hP : P.point with
  | infinity => simp only [compress, hP, flagged_length, LawfulCoordinate.toBytes_length]
  | affine x y => simp only [compress, hP, flagged_length, LawfulCoordinate.toBytes_length]

/-- The abscissa and the sign bit determine a point. -/
theorem compress_injective : Function.Injective (compress : CurvePoint b → List UInt8) := by
  intro P Q h
  have hread := P.decompress?_compress []
  rw [h, Q.decompress?_compress] at hread
  exact (Option.some.inj hread).symm

/-! ### How many points there are -/

/-- The first coordinate of a point and which of the two points with it is meant. -/
def code (P : CurvePoint b) : Option (K × Bool) :=
  match P.point with
  | .infinity => none
  | .affine x y => some (x, Coordinate.larger y)

omit [DecidableEq K] in
/-- A point is determined by its abscissa and which of the two ordinates it has. -/
theorem code_injective : Function.Injective (code : CurvePoint b → Option (K × Bool)) := by
  classical
  intro P Q h
  unfold code at h
  cases hP : P.point with
  | infinity =>
      cases hQ : Q.point with
      | infinity => exact CurvePoint.ext (hP.trans hQ.symm)
      | affine x y =>
          rw [hP, hQ] at h
          cases h
  | affine x y =>
      cases hQ : Q.point with
      | infinity =>
          rw [hP, hQ] at h
          cases h
      | affine x' y' =>
          rw [hP, hQ] at h
          obtain ⟨rfl, hlarger⟩ := Prod.mk.inj (Option.some.inj h)
          have hread := ofAbscissa?_eq_some hP
          have hread' := ofAbscissa?_eq_some hQ
          rw [hlarger, hread'] at hread
          exact (Option.some.inj hread).symm

omit [DecidableEq K] in
theorem finite [Finite K] : Finite (CurvePoint b) := Finite.of_injective code code_injective

omit [DecidableEq K] in
/-- At most two points share their first coordinate. -/
theorem card_le [Finite K] : Nat.card (CurvePoint b) ≤ 2 * Nat.card K + 1 := by
  have hcard : Nat.card (Option (K × Bool)) = 2 * Nat.card K + 1 := by
    rw [Finite.card_option, Nat.card_prod, Nat.card_eq_fintype_card (α := Bool), Fintype.card_bool,
      Nat.mul_comm]
  exact (Nat.card_le_card_of_injective code code_injective).trans_eq hcard

end CurvePoint

/-! ### The first pairing group -/

namespace Fq

/-- The power to `(p + 1) / 4` squares to the element if that is a square. -/
theorem sqrt?_mul_self (y : Fq) : ∃ z, sqrt? (y * y) = some z ∧ (z = y ∨ z = -y) := by
  have hfermat : y ^ (order + 1) = y * y := by
    have hcard := FiniteField.pow_card y
    rw [Residue.card_eq] at hcard
    rw [pow_succ, hcard]
  have hexponent : 4 * ((order + 1) / 4) = order + 1 := by decide +kernel
  have hpow : ∀ k, (y * y) ^ k * (y * y) ^ k = y ^ (4 * k) := fun k => by ring
  have hroot : power (y * y) ((order + 1) / 4) * power (y * y) ((order + 1) / 4) = y * y := by
    rw [power_eq_pow, hpow, hexponent, hfermat]
  refine ⟨power (y * y) ((order + 1) / 4), ?_, mul_self_eq_mul_self_iff.1 hroot⟩
  rw [sqrt?]
  exact if_pos hroot

/-- Only an ordinate that is its own negative shares its flag with the negative. -/
theorem eq_neg_of_larger (y : Fq) (h : larger (-y) = larger y) : -y = y := by
  rw [larger, larger, neg_neg, decide_eq_decide] at h
  exact Residue.ext (by omega)

/-- The top two bits of an encoded coordinate are free for the flag. -/
theorem toNat_of_getLast?_toBytes (x : Fq) (b : UInt8) (h : x.toBytes.getLast? = some b) :
    b.toNat < 64 := by
  have hlast : b.toNat = x.val / 256 ^ 31 % 256 := toNat_of_getLast?_littleEndian h
  have horder : order < 64 * 256 ^ 31 := by decide +kernel
  have hlt := x.isLt
  omega

instance lawful : LawfulCoordinate Fq where
  toBytes_length := toBytes_length
  width_pos := by decide
  last_lt := toNat_of_getLast?_toBytes
  ofBytes?_toBytes x := by
    show ofBytes? x.toBytes = _
    rw [← List.append_nil x.toBytes, ofBytes?_toBytes]
  sqrt?_mul_self := sqrt?_mul_self
  eq_neg_of_larger := eq_neg_of_larger

end Fq

theorem G1.toBytes_injective : Function.Injective G1.toBytes := CurvePoint.compress_injective

end PlonkKzg
