import PlonkKzg.Proofs.Domain.Interpolation
import PlonkKzg.Proofs.Poly.Trimmed

/-!
# Lagrange form

A polynomial by its values on a domain, or on the odd cosets of a domain, and by its coefficients:
evaluation and interpolation go from one form to the other and back. Each direction is described by
the values at the numbered points, and interpolation also by being the only trimmed polynomial with
these values.

* `map_geometric_eq_iff`, `Domain.map_elements_eq_iff`, `Domain.map_cosetPoints_eq_iff` — the values
  at a list of points, place by place;
* `Domain.evaluate_eq_ok_iff`, `Domain.interpolate_eq_ok_iff`,
  `Domain.Refines.interpolateCosets_eq_ok_iff` — both directions, as relations between coefficients
  and values;
* `Domain.evaluate_interpolate` — on a domain;
* `Domain.evaluateCosets_interpolateCosets` — on the odd cosets, whose values come from one domain
  and are interpolated on another.
-/

namespace PlonkKzg

open PlonkKzg.Poly

/-! ### Values at numbered points -/

theorem map_geometric_eq_iff {α : Type} {f : Scalar → α} {start ratio : Scalar} {n : Nat}
    {vs : List α} : (geometric start ratio n).map f = vs ↔
      vs.length = n ∧ ∀ i < n, vs[i]? = some (f (start * ratio ^ i)) := by
  have hget : ∀ i < n, ((geometric start ratio n).map f)[i]? = some (f (start * ratio ^ i)) := by
    intro i hi
    rw [geometric_eq_map, List.map_map, List.getElem?_map, List.getElem?_range hi]
    rfl
  constructor
  · rintro rfl
    exact ⟨by rw [List.length_map, geometric_length], hget⟩
  · rintro ⟨hlen, hvs⟩
    refine List.ext_getElem? fun i => ?_
    by_cases hi : i < n
    · rw [hget i hi, hvs i hi]
    · rw [List.getElem?_eq_none (by simpa using hi), List.getElem?_eq_none (by omega)]

namespace Domain

variable {d q : Domain}

theorem map_elements_eq_iff {α : Type} {f : Scalar → α} {vs : List α} :
    d.elements.map f = vs ↔
      vs.length = d.size ∧ ∀ i < d.size, vs[i]? = some (f (d.generator ^ i)) := by
  rw [elements, map_geometric_eq_iff]
  simp only [one_mul]

/-- Four points after another are one element of the domain, moved to the four odd cosets. -/
theorem finerGenerator_mul_pow (h : d.depth = 3) (i j : Nat) :
    d.finerGenerator * (d.finerGenerator * d.finerGenerator) ^ (cosetCount * i + j) =
      d.generator ^ i * d.finerGenerator ^ (2 * j + 1) := by
  rw [pow_add, pow_mul, finerGenerator_pow_eight h, ← pow_two, ← pow_mul, pow_succ]
  ring

/-- A list of values at the coset points, entry by entry. -/
theorem map_cosetPoints_eq_iff (h : d.depth = 3) {α : Type} {f : Scalar → α} {vs : List α} :
    d.cosetPoints.map f = vs ↔ vs.length = cosetCount * d.size ∧
      ∀ i < d.size, ∀ j < cosetCount, vs[cosetCount * i + j]? =
        some (f (d.generator ^ i * d.finerGenerator ^ (2 * j + 1))) := by
  rw [cosetPoints_eq_geometric h, map_geometric_eq_iff]
  refine and_congr_right fun _ => ⟨fun hvs i hi j hj => ?_, fun hvs m hm => ?_⟩
  · have hlt : cosetCount * i + j < cosetCount * d.size := by
      rw [cosetCount] at hj ⊢
      omega
    rw [hvs _ hlt, finerGenerator_mul_pow h]
  · have hlow : m % cosetCount < cosetCount := Nat.mod_lt m (by decide)
    have hvalue := hvs (m / cosetCount) (Nat.div_lt_of_lt_mul hm) (m % cosetCount) hlow
    rwa [← finerGenerator_mul_pow h, Nat.div_add_mod] at hvalue

/-- The coset points are the elements shifted by the odd powers of the finer root. -/
theorem mem_cosetPoints_iff_exists (h : d.depth = 3) {x : Scalar} :
    x ∈ d.cosetPoints ↔ ∃ i < d.size, ∃ j < cosetCount,
      d.generator ^ i * d.finerGenerator ^ (2 * j + 1) = x := by
  constructor
  · intro hx
    rw [cosetPoints_eq_geometric h, mem_geometric_iff] at hx
    obtain ⟨m, hm, rfl⟩ := hx
    refine ⟨m / cosetCount, Nat.div_lt_of_lt_mul hm, m % cosetCount, Nat.mod_lt m (by decide), ?_⟩
    rw [← finerGenerator_mul_pow h, Nat.div_add_mod]
  · rintro ⟨i, hi, j, hj, rfl⟩
    exact List.mem_of_getElem? (((map_cosetPoints_eq_iff h).1 (List.map_id _)).2 i hi j hj)

/-! ### On the elements -/

/-- Evaluation succeeds within the size, with the values at the elements. -/
theorem evaluate_eq_ok_iff {p : Poly} {vs : List Scalar} :
    d.evaluate p = .ok vs ↔ p.coefs.length ≤ d.size ∧ d.elements.map p.eval = vs := by
  constructor
  · intro h
    by_cases hlen : p.coefs.length ≤ d.size
    · rw [evaluate_eq_ok hlen] at h
      exact ⟨hlen, Except.ok.inj h⟩
    · simp only [evaluate, padded, if_neg hlen, bind, Except.bind] at h
      cases h
  · rintro ⟨hlen, rfl⟩
    exact evaluate_eq_ok hlen

theorem evaluate_eq_error {p : Poly} {e : Error} (h : d.evaluate p = .error e) :
    e = .badArguments := by
  by_cases hlen : p.coefs.length ≤ d.size
  · rw [evaluate_eq_ok hlen] at h
    cases h
  · simp only [evaluate, padded, if_neg hlen, bind, Except.bind] at h
    exact (Except.error.inj h).symm

/-- What an interpolation returns is the trimmed interpolant. -/
theorem interpolates_of_interpolate {vs : List Scalar} {p : Poly} (h : d.interpolate vs = .ok p) :
    p.Interpolates d.elements vs where
  trimmed := by
    unfold interpolate at h
    split at h
    · obtain rfl := Except.ok.inj h
      exact ofCoefs_trimmed _
    · cases h
  length_le := (interpolate_eq_ok h).2.1.trans_eq d.elements_length.symm
  values := (interpolate_eq_ok h).2.2.2

/-- Interpolation computes the trimmed interpolant: there is one, and it is returned. -/
theorem interpolate_eq_ok_iff {vs : List Scalar} {p : Poly} :
    d.interpolate vs = .ok p ↔ p.Interpolates d.elements vs := by
  constructor
  · exact interpolates_of_interpolate
  · intro hp
    have hlen : vs.length = d.size := by rw [← hp.values, List.length_map, d.elements_length]
    obtain ⟨r, hr⟩ := interpolate_isOk hlen
    rw [hr, (interpolates_of_interpolate hr).unique d.elements_nodup hp]

theorem interpolate_eq_error {vs : List Scalar} {e : Error} (h : d.interpolate vs = .error e) :
    e = .badArguments := by
  unfold interpolate at h
  split at h
  · cases h
  · exact (Except.error.inj h).symm

/-- Evaluation and interpolation on a domain, and that they undo each other. -/
theorem evaluate_interpolate {n depth : Nat} {d : Domain} (hd : ofSize n depth = .ok d) :
    (∀ p : Poly, (∃ vs, d.evaluate p = .ok vs) ↔ p.coefs.length ≤ n) ∧
    (∀ (p : Poly) (vs : List Scalar), d.evaluate p = .ok vs →
      vs.length = n ∧ (∀ i < n, vs[i]? = some (p.eval (d.generator ^ i))) ∧
        d.interpolate vs = .ok (ofCoefs p.coefs)) ∧
    (∀ vs : List Scalar, (∃ p, d.interpolate vs = .ok p) ↔ vs.length = n) ∧
    (∀ (vs : List Scalar) (p : Poly), d.interpolate vs = .ok p →
      d.evaluate p = .ok vs ∧ ∀ r : Poly, r = p ↔ r.Trimmed ∧ r.coefs.length ≤ n ∧
        ∀ i < n, vs[i]? = some (r.eval (d.generator ^ i))) ∧
    (∀ (p : Poly) (e : Error), d.evaluate p = .error e → e = .badArguments) ∧
    (∀ (vs : List Scalar) (e : Error), d.interpolate vs = .error e → e = .badArguments) := by
  obtain ⟨rfl, -⟩ := ofSize_eq_ok hd
  have hlength := d.elements_length
  refine ⟨fun p => ?_, fun p vs h => ?_, fun vs => ?_, fun vs p h => ?_,
    fun _ _ => evaluate_eq_error, fun _ _ => interpolate_eq_error⟩
  · simp only [evaluate_eq_ok_iff, exists_and_left, exists_eq', and_true]
  · obtain ⟨hlen, rfl⟩ := evaluate_eq_ok_iff.1 h
    obtain ⟨hvs, hvalues⟩ := map_elements_eq_iff.1 (Eq.refl (d.elements.map p.eval))
    refine ⟨hvs, hvalues, interpolate_eq_ok_iff.2 (ofCoefs_interpolates ?_ ?_)⟩
    · rwa [hlength]
    · rw [hlength]
      exact d.size_pos
  · exact ⟨fun ⟨p, h⟩ => (interpolate_eq_ok h).1, interpolate_isOk⟩
  · have hp := interpolate_eq_ok_iff.1 h
    refine ⟨evaluate_eq_ok_iff.2 ⟨hp.length_le.trans_eq hlength, hp.values⟩, fun r => ?_⟩
    constructor
    · rintro rfl
      exact ⟨hp.trimmed, hp.length_le.trans_eq hlength, (map_elements_eq_iff.1 hp.values).2⟩
    · rintro ⟨htrimmed, hle, hvalues⟩
      have hr : r.Interpolates d.elements vs :=
        ⟨htrimmed, hle.trans_eq hlength.symm,
          map_elements_eq_iff.2 ⟨(interpolate_eq_ok h).1, hvalues⟩⟩
      exact hr.unique d.elements_nodup hp

/-- The domain of four points. -/
theorem evaluate_interpolate_four : ∃ d : Domain, ofSize 4 2 = .ok d ∧
    (∀ p : Poly, (∃ vs, d.evaluate p = .ok vs) ↔ p.coefs.length ≤ 4) ∧
    (∀ (p : Poly) (vs : List Scalar), d.evaluate p = .ok vs →
      vs.length = 4 ∧ (∀ i < 4, vs[i]? = some (p.eval (d.generator ^ i))) ∧
        d.interpolate vs = .ok (ofCoefs p.coefs)) ∧
    (∀ vs : List Scalar, (∃ p, d.interpolate vs = .ok p) ↔ vs.length = 4) ∧
    (∀ (vs : List Scalar) (p : Poly), d.interpolate vs = .ok p →
      d.evaluate p = .ok vs ∧ ∀ r : Poly, r = p ↔ r.Trimmed ∧ r.coefs.length ≤ 4 ∧
        ∀ i < 4, vs[i]? = some (r.eval (d.generator ^ i))) ∧
    (∀ (p : Poly) (e : Error), d.evaluate p = .error e → e = .badArguments) ∧
    (∀ (vs : List Scalar) (e : Error), d.interpolate vs = .error e → e = .badArguments) := by
  have hd : ofSize 4 2 = .ok ⟨2, 2, by decide⟩ := rfl
  exact ⟨_, hd, evaluate_interpolate hd⟩

/-! ### On the odd cosets -/

/-- The domain made for four times the points refines the one it is made for. -/
theorem refines_of_ofSize {n : Nat} (hd : ofSize n 3 = .ok d)
    (hq : ofSize (cosetCount * n) 1 = .ok q) : q.Refines d where
  depth := (ofSize_eq_ok hd).2
  quotientDepth := (ofSize_eq_ok hq).2
  size := by rw [(ofSize_eq_ok hq).1, (ofSize_eq_ok hd).1]

/-- Interpolation over the cosets computes the trimmed interpolant of the coset points. -/
theorem Refines.interpolateCosets_eq_ok_iff (hq : q.Refines d) {vs : List Scalar} {p : Poly} :
    q.interpolateCosets vs = .ok p ↔ p.Interpolates d.cosetPoints vs := by
  have hlength := cosetPoints_length hq.depth
  -- The polynomial that is found for the right number of values has them.
  have hfound : ∀ {us : List Scalar}, us.length = cosetCount * d.size →
      ∃ r, q.interpolateCosets us = .ok r ∧ r.Interpolates d.cosetPoints us := by
    intro us hus
    obtain ⟨r, hr, hle, -, hvalues⟩ := hq.interpolateCosets_isOk hus
    refine ⟨r, hr, ?_, hle.trans_eq hlength.symm, hvalues⟩
    rw [interpolateCosets, if_pos ⟨hq.quotientDepth, hus.trans hq.size.symm⟩] at hr
    rw [← Except.ok.inj hr]
    exact ofCoefs_trimmed _
  constructor
  · intro h
    have hvs : vs.length = cosetCount * d.size := by
      unfold interpolateCosets at h
      split at h
      · rename_i hfit
        exact hfit.2.trans hq.size
      · cases h
    obtain ⟨r, hr, hspec⟩ := hfound hvs
    rwa [← Except.ok.inj (hr.symm.trans h)]
  · intro hp
    have hvs : vs.length = cosetCount * d.size := by rw [← hp.values, List.length_map, hlength]
    obtain ⟨r, hr, hspec⟩ := hfound hvs
    rw [hr, hspec.unique (cosetPoints_nodup hq.depth) hp]

/-- The same by the numbered points. -/
theorem interpolates_cosetPoints_iff (h : d.depth = 3) {vs : List Scalar}
    (hvs : vs.length = cosetCount * d.size) {p : Poly} :
    p.Interpolates d.cosetPoints vs ↔
      p.Trimmed ∧ p.coefs.length ≤ cosetCount * d.size ∧
        ∀ i < d.size, ∀ j < cosetCount, vs[cosetCount * i + j]? =
          some (p.eval (d.generator ^ i * d.finerGenerator ^ (2 * j + 1))) := by
  constructor
  · rintro ⟨htrimmed, hle, hvalues⟩
    exact ⟨htrimmed, hle.trans_eq (cosetPoints_length h), ((map_cosetPoints_eq_iff h).1 hvalues).2⟩
  · rintro ⟨htrimmed, hle, hvalues⟩
    exact ⟨htrimmed, hle.trans_eq (cosetPoints_length h).symm,
      (map_cosetPoints_eq_iff h).2 ⟨hvs, hvalues⟩⟩

/-- Evaluation on the odd cosets of one domain and interpolation on the other one agree on the
points. -/
theorem evaluateCosets_interpolateCosets {n : Nat} {d q : Domain} (hd : ofSize n 3 = .ok d)
    (hq : ofSize (4 * n) 1 = .ok q) :
    (∀ p : Poly, p.coefs.length ≤ n → ∃ vs, d.evaluateCosets p = .ok vs ∧ vs.length = 4 * n ∧
      (∀ i < n, ∀ j < 4, vs[4 * i + j]? =
        some (p.eval (d.generator ^ i * d.finerGenerator ^ (2 * j + 1)))) ∧
      q.interpolateCosets vs = .ok (ofCoefs p.coefs)) ∧
    (2 ≤ n → d.evaluateCosets (ofCoefs [0, 1]) = .ok d.cosetPoints) ∧
    (∀ vs : List Scalar, vs.length = 4 * n → ∃ p, q.interpolateCosets vs = .ok p ∧
      ∀ r : Poly, r = p ↔ r.Trimmed ∧ r.coefs.length ≤ 4 * n ∧
        ∀ i < n, ∀ j < 4, vs[4 * i + j]? =
          some (r.eval (d.generator ^ i * d.finerGenerator ^ (2 * j + 1)))) := by
  have hrefines : q.Refines d := refines_of_ofSize hd hq
  obtain ⟨rfl, hdepth⟩ := ofSize_eq_ok hd
  have hlength : d.cosetPoints.length = 4 * d.size := cosetPoints_length hdepth
  refine ⟨fun p hp => ?_, fun htwo => ?_, fun vs hvs => ?_⟩
  · obtain ⟨hvs, hvalues⟩ := (map_cosetPoints_eq_iff hdepth).1 (Eq.refl (d.cosetPoints.map p.eval))
    refine ⟨_, evaluateCosets_eq_ok hdepth hp, hvs, hvalues,
      hrefines.interpolateCosets_eq_ok_iff.2 (ofCoefs_interpolates ?_ ?_)⟩
    · omega
    · have := d.size_pos
      omega
  · have hcoefs : (ofCoefs [0, 1]).coefs = [0, 1] := by decide
    rw [evaluateCosets_eq_ok hdepth (hcoefs ▸ htwo), List.map_congr_left (g := id) ?_, List.map_id]
    intro x _
    simp only [eval, hcoefs, evalCoefs, List.foldr_cons, List.foldr_nil]
    simp
  · obtain ⟨p, hp, -⟩ := hrefines.interpolateCosets_isOk hvs
    have hspec := hrefines.interpolateCosets_eq_ok_iff.1 hp
    refine ⟨p, hp, fun r => ?_⟩
    rw [← cosetCount, ← interpolates_cosetPoints_iff hdepth hvs]
    exact ⟨fun hr => hr ▸ hspec, fun hr => hr.unique (cosetPoints_nodup hdepth) hspec⟩

/-- The odd cosets of the domain of two points. -/
theorem evaluateCosets_interpolateCosets_two : ∃ d q : Domain, ofSize 2 3 = .ok d ∧
    ofSize (4 * 2) 1 = .ok q ∧
    (∀ p : Poly, p.coefs.length ≤ 2 → ∃ vs, d.evaluateCosets p = .ok vs ∧ vs.length = 4 * 2 ∧
      (∀ i < 2, ∀ j < 4, vs[4 * i + j]? =
        some (p.eval (d.generator ^ i * d.finerGenerator ^ (2 * j + 1)))) ∧
      q.interpolateCosets vs = .ok (ofCoefs p.coefs)) ∧
    (2 ≤ 2 → d.evaluateCosets (ofCoefs [0, 1]) = .ok d.cosetPoints) ∧
    (∀ vs : List Scalar, vs.length = 4 * 2 → ∃ p, q.interpolateCosets vs = .ok p ∧
      ∀ r : Poly, r = p ↔ r.Trimmed ∧ r.coefs.length ≤ 4 * 2 ∧
        ∀ i < 2, ∀ j < 4, vs[4 * i + j]? =
          some (r.eval (d.generator ^ i * d.finerGenerator ^ (2 * j + 1)))) := by
  have hd : ofSize 2 3 = .ok ⟨1, 3, by decide⟩ := rfl
  have hq : ofSize (4 * 2) 1 = .ok ⟨3, 1, by decide⟩ := rfl
  exact ⟨_, _, hd, hq, evaluateCosets_interpolateCosets hd hq⟩

end Domain

end PlonkKzg
