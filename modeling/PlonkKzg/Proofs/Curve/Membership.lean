import PlonkKzg.Proofs.Curve.Canonical
import PlonkKzg.Proofs.Curve.Subgroup

/-!
# Bytes that write a point of the second group

The twisted curve has points outside the group, and these have bytes as well. The reader takes the
bytes of the points of the group and refuses the others. A multiple of a finite point of the group is
not zero if the factor is prime to the order of the scalars. So the point is not its own negative, and
it is read from its own bytes only.

* `G2.nsmul_ne_zero` — which multiples of a finite point of the group are not zero;
* `Fq2.canonical` — the bytes of a coordinate;
* `G2.ofBytes?_toBytes_eq_error` — the bytes of a point outside the group are refused;
* `G2.ofBytes?_eq_ok_iff` — what is read as a finite point;
* `G2.encoding_subgroup` — points of the group and encodings determine each other;
* `G2.outsider` — a point of the curve that is not in the group.
-/

namespace PlonkKzg

instance Fq2.canonical : CanonicalCoordinate Fq2 where
  toBytes_of_ofBytes? h := Fq2.ofBytes?_eq_some_iff.1 h

namespace G2

theorem ofBytes?_eq_readIf (bs : List UInt8) :
    ofBytes? bs = CurvePoint.readIf G2.b inSubgroup bs := by
  unfold ofBytes? CurvePoint.readIf
  cases CurvePoint.decompress? G2.b bs <;> rfl

/-- Whatever decodes lies in the subgroup. -/
theorem inSubgroup_of_ofBytes? {bs : List UInt8} {P : G2} (h : ofBytes? bs = .ok P) :
    inSubgroup P = true := by
  rw [ofBytes?_eq_readIf, CurvePoint.readIf_eq_ok_iff] at h
  exact h.2

/-- A multiple prime to the order kills no point of the subgroup but zero. -/
theorem nsmul_ne_zero {P : G2} (hsubgroup : inSubgroup P = true) (hP : P ≠ 0) {n : Nat}
    (hn : Nat.gcd n Scalar.order = 1) : n • P ≠ 0 := by
  intro hzero
  apply hP
  have hgcd := gcd_nsmul_eq_zero.2 ⟨hzero, inSubgroup_iff.1 hsubgroup⟩
  rwa [hn, one_nsmul] at hgcd

theorem neg_ne_self {P : G2} (hsubgroup : inSubgroup P = true) (hP : P ≠ 0) : -P ≠ P := by
  intro hneg
  apply nsmul_ne_zero (n := 2) hsubgroup hP (by decide)
  rw [two_nsmul]
  exact neg_eq_iff_add_eq_zero.1 hneg

/-- What is read as a finite point are the bytes of a point of the group and anything behind them. -/
theorem ofBytes?_eq_ok_iff {bs : List UInt8} {P : G2} (hP : P ≠ 0) :
    ofBytes? bs = .ok P ↔ inSubgroup P = true ∧ toBytes P = bs.take byteLength := by
  constructor
  · intro h
    have hsubgroup := inSubgroup_of_ofBytes? h
    rw [ofBytes?_eq_readIf, CurvePoint.readIf_eq_ok_iff] at h
    exact ⟨hsubgroup, CurvePoint.compress_of_decompress? h.1 hP (neg_ne_self hsubgroup hP)⟩
  · rintro ⟨hsubgroup, hbytes⟩
    rw [← List.take_append_drop byteLength bs, ← hbytes]
    exact ofBytes?_toBytes hsubgroup _

theorem toBytes_length (P : G2) : (toBytes P).length = byteLength := P.compress_length

theorem ofBytes?_eq_error {bs : List UInt8} {e : AlgebraError} (h : ofBytes? bs = .error e) :
    e = .undecodable :=
  CurvePoint.readIf_eq_error (ofBytes?_eq_readIf bs ▸ h)

/-- The bytes of a point outside the group write the point, which does not pass the test. -/
theorem ofBytes?_toBytes_eq_error {P : G2} (h : inSubgroup P = false) (rest : List UInt8) :
    ofBytes? (toBytes P ++ rest) = .error .undecodable := by
  simp [ofBytes?, toBytes, CurvePoint.decompress?_compress, h]

/-- The bytes of the points of the group are read as these points, whatever follows them, and those
of the other points of the curve are refused. What is read is a point of the curve and of the group,
and a finite point is read from its own bytes only. -/
theorem encoding_subgroup :
    (∀ P : G2, Scalar.order • P = 0 → ∀ t : List UInt8,
      (toBytes P).length = 64 ∧ ofBytes? (toBytes P ++ t) = .ok P) ∧
    (∀ (bs : List UInt8) (P : G2), ofBytes? bs = .ok P →
      P.point.OnCurve G2.b ∧ Scalar.order • P = 0 ∧ (P ≠ 0 → toBytes P = bs.take 64)) ∧
    (∀ P : G2, Scalar.order • P ≠ 0 → ∀ t : List UInt8,
      ofBytes? (toBytes P ++ t) = .error .undecodable) ∧
    ∀ (bs : List UInt8) (e : AlgebraError), ofBytes? bs = .error e → e = .undecodable := by
  refine ⟨?_, ?_, ?_, fun bs e h => ofBytes?_eq_error h⟩
  · intro P hP t
    exact ⟨toBytes_length P, ofBytes?_toBytes (inSubgroup_iff.2 hP) t⟩
  · intro bs P h
    have hsubgroup := inSubgroup_iff.1 (inSubgroup_of_ofBytes? h)
    exact ⟨P.onCurve, hsubgroup, fun hP => ((ofBytes?_eq_ok_iff hP).1 h).2⟩
  · intro P hP t
    exact ofBytes?_toBytes_eq_error (Bool.eq_false_of_not_eq_true (mt inSubgroup_iff.1 hP)) t

/-- The first coordinate of a point of order 10069. -/
def outsiderX : Fq2 :=
  ⟨Fq.ofNat 13166037766376168314336537062090005903316931692757604860025243440397330564074,
    Fq.ofNat 6102698928352281478830620114933288271145235725933561098868784146582937146495⟩

def outsiderY : Fq2 :=
  ⟨Fq.ofNat 12727123248195810574442310570585772993533358222793829730110654617787401586636,
    Fq.ofNat 11169713577090708631759688821208724071538697496733274202834054025092949957019⟩

/-- A point of the curve whose order divides the cofactor. -/
def outsider : G2 := ⟨.affine outsiderX outsiderY, by decide +kernel⟩

/-- The outsider's order, by running the multiplication. -/
theorem outsider_times : outsider.point.times 10069 = .infinity := by decide +kernel

/-- It is on the curve, yet outside the subgroup. -/
theorem inSubgroup_outsider : inSubgroup outsider = false := by
  rw [Bool.eq_false_iff]
  intro hsubgroup
  apply nsmul_ne_zero hsubgroup (P := outsider) (by decide) (n := 10069) (by decide)
  exact CurvePoint.ext ((CurvePoint.point_nsmul _ _).trans outsider_times)

/-- The base point is read from its bytes and what follows them, and the point outside is refused. -/
theorem encoding_subgroup_outsider :
    ofBytes? (toBytes generator ++ [7]) = .ok generator ∧
      ofBytes? (toBytes outsider ++ [7]) = .error .undecodable := by
  refine ⟨(encoding_subgroup.1 generator (inSubgroup_iff.1 inSubgroup_generator) [7]).2, ?_⟩
  refine encoding_subgroup.2.2.1 outsider (mt inSubgroup_iff.2 ?_) [7]
  rw [inSubgroup_outsider]
  exact Bool.false_ne_true

end G2

end PlonkKzg
