import PlonkKzg.Curve.G2
import PlonkKzg.Proofs.Curve.Compressed
import PlonkKzg.Proofs.Field.Quadratic

/-!
# Points of the twisted curve in bytes

The coordinates of the second pairing group are pairs. A square has one of its two roots as its
root: the root of the norm that is found may be the negative one of that of the element, and then
the first half that is tried is no square and the second one is.

* `Fq2.sqrt?_mul_self` — a square has a root, which is one of two;
* `Fq2.lawful` — so compressed points of the twisted curve are read as they were written;
* `G2.ofBytes?_toBytes` — the points of the group among them.
-/

namespace PlonkKzg

namespace Fq2

theorem half_double (a : Fq) : half (a + a) = a := by
  have htwo : a + a = a * Fq.ofNat 2 := (mul_two a).symm
  have hinv := mul_inv_cancel₀ Fq.two_ne_zero
  rw [half, htwo, mul_assoc, hinv, mul_one]

theorem add_self_ne_zero {a : Fq} (ha : a ≠ 0) : a + a ≠ 0 := by
  have htwo : a + a = a * Fq.ofNat 2 := (mul_two a).symm
  rw [htwo]
  exact mul_ne_zero ha Fq.two_ne_zero

/-- The second coefficient of a root follows from the first. -/
theorem eq_or_neg_of_first {y : Fq2} {x : Fq} (hx : x = y.c0 ∨ x = -y.c0) (hne : y.c0 ≠ 0) :
    (⟨x, (y * y).c1 * (x + x)⁻¹⟩ : Fq2) = y ∨ (⟨x, (y * y).c1 * (x + x)⁻¹⟩ : Fq2) = -y := by
  have hsum := mul_inv_cancel₀ (add_self_ne_zero hne)
  have hmixed : (y * y).c1 = y.c1 * (y.c0 + y.c0) := by
    rw [c1_mul]
    ring
  rw [hmixed]
  rcases hx with rfl | rfl
  · refine .inl (Fq2.ext rfl ?_)
    show y.c1 * (y.c0 + y.c0) * (y.c0 + y.c0)⁻¹ = y.c1
    rw [mul_assoc, hsum, mul_one]
  · refine .inr (Fq2.ext rfl ?_)
    show y.c1 * (y.c0 + y.c0) * (-y.c0 + -y.c0)⁻¹ = -y.c1
    rw [← neg_add, inv_neg, mul_neg, mul_assoc, hsum, mul_one]

/-- The square of a pair of two coefficients that are not zero. -/
theorem sqrtCandidate?_of_ne {y : Fq2} (h0 : y.c0 ≠ 0) (h1 : y.c1 ≠ 0) :
    ∃ z, sqrtCandidate? (y * y) = some z ∧ (z = y ∨ z = -y) := by
  have hc1 : (y * y).c1 ≠ 0 := by
    have hmixed : (y * y).c1 = y.c1 * (y.c0 + y.c0) := by
      rw [c1_mul]
      ring
    rw [hmixed]
    exact mul_ne_zero h1 (add_self_ne_zero h0)
  have hnorm : (y * y).norm = y.norm * y.norm := by
    simp only [norm, c0_mul, c1_mul]
    ring
  have hplus : half ((y * y).c0 + y.norm) = y.c0 * y.c0 := by
    have hsum : (y * y).c0 + y.norm = y.c0 * y.c0 + y.c0 * y.c0 := by
      rw [norm, c0_mul]
      ring
    rw [hsum, half_double]
  have hminus : half ((y * y).c0 - y.norm) = -(y.c1 * y.c1) := by
    have hdiff : (y * y).c0 - y.norm = -(y.c1 * y.c1) + -(y.c1 * y.c1) := by
      rw [norm, c0_mul]
      ring
    rw [hdiff, half_double]
  obtain ⟨s, hs, hscases⟩ := Fq.sqrt?_mul_self y.norm
  obtain ⟨x, hx, hxcases⟩ := Fq.sqrt?_mul_self y.c0
  have hnone := Fq.sqrt?_neg_mul_self h1
  refine ⟨⟨x, (y * y).c1 * (x + x)⁻¹⟩, ?_, eq_or_neg_of_first hxcases h0⟩
  rw [sqrtCandidate?, if_neg hc1, hnorm, hs, Option.bind_some]
  -- With the other root of the norm the first half is no square, and the second one is taken.
  rcases hscases with rfl | rfl
  · rw [hplus, hx]
    rfl
  · rw [← sub_eq_add_neg, hminus, hnone, sub_neg_eq_add, hplus, hx]
    rfl

/-- For a square the candidate is one of its two roots. -/
theorem sqrtCandidate?_mul_self (y : Fq2) :
    ∃ z, sqrtCandidate? (y * y) = some z ∧ (z = y ∨ z = -y) := by
  by_cases h1 : y.c1 = 0
  · have hc1 : (y * y).c1 = 0 := by rw [c1_mul, h1, mul_zero, zero_mul, add_zero]
    have hc0 : (y * y).c0 = y.c0 * y.c0 := by rw [c0_mul, h1, mul_zero, sub_zero]
    obtain ⟨x, hx, hcases⟩ := Fq.sqrt?_mul_self y.c0
    refine ⟨⟨x, 0⟩, ?_, ?_⟩
    · simp only [sqrtCandidate?, if_pos hc1, hc0, hx]
    · exact hcases.imp (fun h => Fq2.ext h h1.symm) fun h =>
        Fq2.ext h (by rw [c1_neg, h1, neg_zero])
  · by_cases h0 : y.c0 = 0
    · have hc1 : (y * y).c1 = 0 := by rw [c1_mul, h0, mul_zero, zero_mul, add_zero]
      have hc0 : (y * y).c0 = -(y.c1 * y.c1) := by rw [c0_mul, h0, mul_zero, zero_sub]
      obtain ⟨x, hx, hcases⟩ := Fq.sqrt?_mul_self y.c1
      refine ⟨⟨0, x⟩, ?_, ?_⟩
      · simp only [sqrtCandidate?, if_pos hc1, hc0, Fq.sqrt?_neg_mul_self h1, neg_neg, hx,
          Option.map_some]
      · exact hcases.imp (fun h => Fq2.ext h0.symm h) fun h =>
          Fq2.ext (by rw [c0_neg, h0, neg_zero]) h
    · exact sqrtCandidate?_of_ne h0 h1

/-- Every square has its root found, up to sign. -/
theorem sqrt?_mul_self (y : Fq2) : ∃ z, sqrt? (y * y) = some z ∧ (z = y ∨ z = -y) := by
  obtain ⟨z, hz, hcases⟩ := sqrtCandidate?_mul_self y
  refine ⟨z, ?_, hcases⟩
  rw [sqrt?, hz, Option.bind_some, if_pos (mul_self_eq_mul_self_iff.2 hcases)]

theorem eq_neg_of_larger (y : Fq2) (h : larger (-y) = larger y) : -y = y := by
  have hneg : (- -y) = y := neg_neg y
  simp only [larger, hneg] at h
  by_cases h1 : y.c1 = (-y).c1
  · rw [if_pos h1.symm, if_pos h1, decide_eq_decide] at h
    exact Fq2.ext (Residue.ext (by omega)) h1.symm
  · rw [if_neg (Ne.symm h1), if_neg h1, decide_eq_decide] at h
    exact absurd (Residue.ext (by omega)) h1

theorem toNat_of_getLast?_toBytes (x : Fq2) (b : UInt8) (h : x.toBytes.getLast? = some b) :
    b.toNat < 64 := by
  have hne : x.c1.toBytes ≠ [] := by
    rw [← List.length_pos_iff, Fq.toBytes_length]
    decide
  rw [toBytes, List.getLast?_append_of_ne_nil _ hne] at h
  exact Fq.toNat_of_getLast?_toBytes x.c1 b h

instance lawful : LawfulCoordinate Fq2 where
  toBytes_length := toBytes_length
  width_pos := by decide
  last_lt := toNat_of_getLast?_toBytes
  ofBytes?_toBytes x := by
    show ofBytes? x.toBytes = _
    rw [← List.append_nil x.toBytes, ofBytes?_toBytes]
  sqrt?_mul_self := sqrt?_mul_self
  eq_neg_of_larger := eq_neg_of_larger

end Fq2

/-- The bytes of a point of the group, and whatever follows them, write that point. -/
theorem G2.ofBytes?_toBytes {P : G2} (h : G2.inSubgroup P) (rest : List UInt8) :
    G2.ofBytes? (G2.toBytes P ++ rest) = .ok P := by
  simp only [G2.ofBytes?, G2.toBytes, CurvePoint.decompress?_compress, h, if_true]

end PlonkKzg
