import PlonkKzg.Proofs.Curve.GroupLaw
import PlonkKzg.Proofs.Curve.Twist
import PlonkKzg.Proofs.Pairing.Laws

/-!
# The second pairing group

The points of the twisted curve are a group, and those whose multiple by the order of the scalars is
zero are a subgroup of it, to which the base point belongs.

* `G2.smooth` — the curve has no singular point;
* `G2.inSubgroup_iff` — membership by a multiple of the group;
* `G2.inSubgroup_zero`, `G2.inSubgroup_add`, `G2.inSubgroup_neg`, `G2.inSubgroup_smul` — sums and
  multiples stay in the group;
* `G2.inSubgroup_generator` — the base point is in it.
-/

namespace PlonkKzg

namespace G2

instance smooth : SmoothCurve G2.b := ⟨by decide +kernel⟩

/-- The test asks whether the order annihilates the point. -/
theorem inSubgroup_iff {Q : G2} : inSubgroup Q = true ↔ Scalar.order • Q = 0 := by
  rw [inSubgroup, decide_eq_true_eq, CurvePoint.times_eq_nsmul]

theorem inSubgroup_zero : inSubgroup 0 = true := by
  rw [inSubgroup_iff, nsmul_zero]

/-- The points that pass the test form a subgroup. -/
theorem inSubgroup_add {P Q : G2} (hP : inSubgroup P = true) (hQ : inSubgroup Q = true) :
    inSubgroup (P + Q) = true := by
  rw [inSubgroup_iff] at hP hQ ⊢
  rw [nsmul_add, hP, hQ, add_zero]

theorem inSubgroup_neg {Q : G2} (hQ : inSubgroup Q = true) : inSubgroup (-Q) = true := by
  rw [inSubgroup_iff] at hQ ⊢
  rw [neg_nsmul, hQ, neg_zero]

theorem inSubgroup_smul (k : Scalar) {Q : G2} (hQ : inSubgroup Q = true) :
    inSubgroup (k • Q) = true := by
  rw [inSubgroup_iff] at hQ ⊢
  have hmultiple : k • Q = k.val • Q := CurvePoint.times_eq_nsmul _ _
  rw [hmultiple, nsmul_left_comm, hQ, nsmul_zero]

/-! ### The base point -/

/-- The multiple of the base point by the high half of the bits of the order. -/
def highMultiple : Point Fq2 :=
  .affine
    ⟨Fq.ofNat 17816365905369572625033366332886116200784464796980336264393897744487198587353,
      Fq.ofNat 224498247905676792645918768578079444989851826929574003337829992512444389411⟩
    ⟨Fq.ofNat 16159147150703684513380585897845682232336870469588890469897191372089438038542,
      Fq.ofNat 16239713962553839758629858398261536779819866079675837744679304153292450648844⟩

theorem times_high_half : generator.point.times (Scalar.order / Nat.pow 2 128) = highMultiple := by
  decide +kernel

theorem highMultiple_times_add :
    (highMultiple.times (Nat.pow 2 128)).add (generator.point.times (Scalar.order % Nat.pow 2 128)) =
      .infinity := by
  decide +kernel

/-- The multiples by both halves of the order add up to zero. -/
theorem inSubgroup_generator : inSubgroup generator = true := by
  rw [inSubgroup_iff]
  apply CurvePoint.ext
  rw [← Nat.div_add_mod Scalar.order (Nat.pow 2 128), add_nsmul, mul_nsmul', CurvePoint.point_add,
    CurvePoint.point_nsmul, CurvePoint.point_nsmul, CurvePoint.point_nsmul, times_high_half,
    highMultiple_times_add]
  rfl

end G2

end PlonkKzg
