import PlonkKzg.Proofs.Domain.Decimation
import PlonkKzg.Proofs.Domain.Vanishing

/-!
# Transforms undo each other

The values on a coset determine as many coefficients as the coset has points, and the inverse
transform finds them. So a transform and the inverse transform of the opposite decimation, which
takes its data in the order in which the transform leaves them, undo each other; with the same
decimation there is one reversal between the two, and another one in the result.

* `Domain.values_coefficients`, `Domain.values_injective`, `Domain.coefficients_values` — values and
  coefficients in natural order;
* `Domain.fft_fftInverse` — the transforms.
-/

namespace PlonkKzg

open PlonkKzg.Poly

namespace Domain

variable {d : Domain} (coset : Nat) {as : List Scalar}

/-- Evaluating the interpolated coefficients gives the values back. -/
theorem values_coefficients (h : as.length = d.size) :
    d.values coset (d.coefficients coset as) = as := by
  rw [values, coefficients, ← d.bitReverse_inverseTransform coset h]
  exact d.map_evalCoefs_bitReverse_inverseTransform coset h

/-- Coefficients with the same values on a coset are the same. -/
theorem values_injective {bs : List Scalar} (ha : as.length = d.size) (hb : bs.length = d.size)
    (h : d.values coset as = d.values coset bs) : as = bs := by
  have hnodup := geometric_nodup d.generator_primitive (pow_ne_zero coset d.finerGenerator_ne_zero)
  have hdegree : ∀ cs : List Scalar, cs.length = d.size → (polynomialOf cs).degree <
      (geometric (d.finerGenerator ^ coset) d.generator d.size).length := by
    intro cs hcs
    rw [geometric_length, ← hcs]
    exact degree_polynomialOf_lt cs
  refine eq_of_polynomialOf_eq (ha.trans hb.symm)
    (eq_of_map_eval_eq hnodup (hdegree as ha) (hdegree bs hb) ?_)
  intro x hx
  rw [eval_polynomialOf, eval_polynomialOf]
  exact List.map_inj_left.1 h x hx

/-- Interpolating the evaluated values gives the coefficients back. -/
theorem coefficients_values (h : as.length = d.size) :
    d.coefficients coset (d.values coset as) = as := by
  apply values_injective coset (d.coefficients_length coset _) h
  exact values_coefficients coset (d.values_length coset as)

/-- On every coset, the transforms of opposite decimations undo each other in both orders. Those of
the same decimation do so with a reversal in between, up to the order of the data. All this is so
for the transforms by stages, which are the same. -/
theorem fft_fftInverse {n depth : Nat} (hd : ofSize n depth = .ok d) (coset : Nat)
    {as : List Scalar} (has : as.length = n) :
    (do let vs ← d.fft .frequency coset as
        d.fftInverse .time coset vs) = .ok as ∧
    (do let cs ← d.fftInverse .time coset as
        d.fft .frequency coset cs) = .ok as ∧
    (do let vs ← d.fft .time coset as
        d.fftInverse .frequency coset vs) = .ok as ∧
    (do let cs ← d.fftInverse .frequency coset as
        d.fft .time coset cs) = .ok as ∧
    (do let vs ← d.fft .frequency coset as
        d.fftInverse .frequency coset (bitReverse vs)) = .ok (bitReverse as) ∧
    (do let vs ← d.fft .time coset (bitReverse as)
        d.fftInverse .time coset (bitReverse vs)) = .ok as ∧
    d.fftByStages = d.fft ∧ d.fftInverseByStages = d.fftInverse := by
  have hlen : as.length = d.size := has.trans (ofSize_eq_ok hd).1.symm
  -- All lists on the way have the size of the domain, so that reversals cancel.
  have hreverse : ∀ {bs : List Scalar}, bs.length = d.size → (bitReverse bs).length = d.size :=
    fun h => (bitReverse_length _).trans h
  have hvalues : (d.values coset as).length = d.size := d.values_length coset as
  have hcoefs : (d.coefficients coset as).length = d.size := d.coefficients_length coset as
  have hstages : d.fftByStages = d.fft := by
    funext dec coset as
    exact d.fftByStages_eq_fft coset dec as
  have hinverse : d.fftInverseByStages = d.fftInverse := by
    funext dec coset vs
    exact d.fftInverseByStages_eq_fftInverse coset dec vs
  refine ⟨?_, ?_, ?_, ?_, ?_, ?_, hstages, hinverse⟩
  · rw [d.fft_frequency coset hlen]
    show d.fftInverse .time coset (bitReverse (d.values coset as)) = .ok as
    rw [d.fftInverse_time coset (hreverse hvalues), bitReverse_bitReverse hvalues,
      coefficients_values coset hlen]
  · rw [d.fftInverse_time coset hlen]
    show d.fft .frequency coset (d.coefficients coset (bitReverse as)) = .ok as
    rw [d.fft_frequency coset (d.coefficients_length coset _),
      values_coefficients coset (hreverse hlen), bitReverse_bitReverse hlen]
  · rw [d.fft_time coset hlen]
    show d.fftInverse .frequency coset (d.values coset (bitReverse as)) = .ok as
    rw [d.fftInverse_frequency coset (d.values_length coset _),
      coefficients_values coset (hreverse hlen), bitReverse_bitReverse hlen]
  · rw [d.fftInverse_frequency coset hlen]
    show d.fft .time coset (bitReverse (d.coefficients coset as)) = .ok as
    rw [d.fft_time coset (hreverse hcoefs), bitReverse_bitReverse hcoefs,
      values_coefficients coset hlen]
  · rw [d.fft_frequency coset hlen]
    show d.fftInverse .frequency coset (bitReverse (bitReverse (d.values coset as))) = _
    rw [bitReverse_bitReverse hvalues, d.fftInverse_frequency coset hvalues,
      coefficients_values coset hlen]
  · rw [d.fft_time coset (hreverse hlen), bitReverse_bitReverse hlen]
    show d.fftInverse .time coset (bitReverse (d.values coset as)) = .ok as
    rw [d.fftInverse_time coset (hreverse hvalues), bitReverse_bitReverse hvalues,
      coefficients_values coset hlen]

/-- The third coset of the domain of four points. -/
theorem fft_fftInverse_four : ∃ (d : Domain) (as : List Scalar),
    ofSize 4 1 = .ok d ∧ as = [1, 0, 1 + 1, 1] ∧
    (do let vs ← d.fft .frequency 3 as
        d.fftInverse .time 3 vs) = .ok as ∧
    (do let cs ← d.fftInverse .time 3 as
        d.fft .frequency 3 cs) = .ok as ∧
    (do let vs ← d.fft .time 3 as
        d.fftInverse .frequency 3 vs) = .ok as ∧
    (do let cs ← d.fftInverse .frequency 3 as
        d.fft .time 3 cs) = .ok as ∧
    (do let vs ← d.fft .frequency 3 as
        d.fftInverse .frequency 3 (bitReverse vs)) = .ok (bitReverse as) ∧
    (do let vs ← d.fft .time 3 (bitReverse as)
        d.fftInverse .time 3 (bitReverse vs)) = .ok as ∧
    d.fftByStages = d.fft ∧ d.fftInverseByStages = d.fftInverse := by
  have hd : ofSize 4 1 = .ok ⟨2, 1, by decide⟩ := rfl
  exact ⟨_, [1, 0, 1 + 1, 1], hd, rfl, fft_fftInverse hd 3 rfl⟩

end Domain

end PlonkKzg
