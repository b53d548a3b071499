import PlonkKzg.Proofs.Domain.OddCosets
import PlonkKzg.Proofs.Domain.Transform

/-!
# Values on the domain and on the odd cosets

Interpolation gives the polynomial with the given values, evaluation gives the values of the
polynomial, and both sides of the quotient agree on what the points of the odd cosets are.

* `Domain.evaluate_eq_ok`, `Domain.interpolate_eq_ok`, `Domain.interpolate_isOk` — on the elements;
* `Domain.Refines` — the domain of the quotient, four times as large and with the same finer root;
* `Domain.cosetPoints_eq_geometric` — the odd powers of the finer root;
* `Domain.evaluateCosets_eq_ok`, `Domain.Refines.interpolateCosets_isOk` — on these points;
* `Domain.pow_size_ne_one_of_mem_cosetPoints` — which lie outside of the domain;
* `Domain.vanishingInverses_eq_ok` — so that `x ^ N - 1` can be inverted there.
-/

namespace PlonkKzg

open PlonkKzg.Poly

namespace Domain

variable {d : Domain}

/-! ### On the elements -/

/-- Padding within the size succeeds and keeps every value. -/
theorem padded_eq_ok {p : Poly} (h : p.coefs.length ≤ d.size) :
    ∃ as, d.padded p = .ok as ∧ as.length = d.size ∧ ∀ x, evalCoefs as x = p.eval x := by
  refine ⟨_, if_pos h, ?_, fun x => ?_⟩
  · rw [List.length_append, List.length_replicate]
    omega
  · rw [evalCoefs_append, evalCoefs_replicate_zero, mul_zero, add_zero, eval]

theorem cosetValues_eq {as : List Scalar} (h : as.length = d.size) (coset : Nat) :
    d.cosetValues coset as =
      (geometric (d.finerGenerator ^ coset) d.generator d.size).map (evalCoefs as) :=
  d.bitReverse_transform coset h

/-- Within the size, evaluation gives the values at the elements in order. -/
theorem evaluate_eq_ok {p : Poly} (h : p.coefs.length ≤ d.size) :
    d.evaluate p = .ok (d.elements.map p.eval) := by
  obtain ⟨as, hpad, hlen, heval⟩ := padded_eq_ok h
  simp only [evaluate, hpad, bind, Except.bind, pure, Except.pure]
  rw [cosetValues_eq hlen, pow_zero, elements, List.map_congr_left fun x _ => heval x]

/-- The polynomial of given values on a coset has as many coefficients and takes these values. -/
theorem ofCosetValues_spec {vs : List Scalar} (h : vs.length = d.size) (coset : Nat) :
    (d.ofCosetValues coset vs).coefs.length ≤ d.size ∧ (d.ofCosetValues coset vs).coefs ≠ [] ∧
      (geometric (d.finerGenerator ^ coset) d.generator d.size).map
        (d.ofCosetValues coset vs).eval = vs := by
  refine ⟨ofCoefs_length_le ?_ d.size_pos, ofCoefs_coefs_ne_nil _, ?_⟩
  · rw [bitReverse_inverseTransform_length d coset h]
  · have hvalues := map_evalCoefs_bitReverse_inverseTransform d coset h
    rw [← hvalues, List.map_congr_left fun x _ => ?_]
    rw [hvalues, ofCosetValues, eval_ofCoefs]

/-- What an interpolation returns takes the values given, within the size. -/
theorem interpolate_eq_ok {vs : List Scalar} {p : Poly} (h : d.interpolate vs = .ok p) :
    vs.length = d.size ∧ p.coefs.length ≤ d.size ∧ p.coefs ≠ [] ∧ d.elements.map p.eval = vs := by
  unfold interpolate at h
  split at h
  · rename_i hlen
    obtain rfl := Except.ok.inj h
    obtain ⟨hle, hne, hvalues⟩ := ofCosetValues_spec hlen 0
    rw [pow_zero] at hvalues
    exact ⟨hlen, hle, hne, hvalues⟩
  · cases h

/-- As many values as elements always interpolate. -/
theorem interpolate_isOk {vs : List Scalar} (h : vs.length = d.size) :
    ∃ p, d.interpolate vs = .ok p := ⟨_, if_pos h⟩

/-! ### The points of the odd cosets -/

/-- The domain of the quotient: four times the size, and depth one below depth three. -/
structure Refines (q d : Domain) : Prop where
  depth : d.depth = 3
  quotientDepth : q.depth = 1
  size : q.size = cosetCount * d.size

/-- A refining domain shares the finest root. -/
theorem Refines.finerGenerator {q d : Domain} (h : q.Refines d) :
    q.finerGenerator = d.finerGenerator := by
  have hsize : 2 ^ q.log = 2 ^ (d.log + 2) := by
    rw [← size_eq, h.size, size_eq, pow_add, Nat.mul_comm]
    rfl
  have hlog : q.log = d.log + 2 := Nat.pow_right_injective (le_refl 2) hsize
  rw [Domain.finerGenerator, Domain.finerGenerator, hlog, h.depth, h.quotientDepth]

theorem Refines.generator {q d : Domain} (h : q.Refines d) :
    q.generator = d.finerGenerator * d.finerGenerator := by
  rw [← h.finerGenerator, ← q.finerGenerator_pow, h.quotientDepth, pow_one, pow_two]

/-- Blocks of four terms are the terms of the finer progression. -/
theorem flatMap_geometric (start start' ratio : Scalar) (n : Nat) :
    (geometric start (ratio ^ cosetCount) n).flatMap
        (fun x => (geometric start' ratio cosetCount).map (x * ·)) =
      geometric (start * start') ratio (cosetCount * n) := by
  induction n generalizing start with
  | zero => rfl
  | succ n ih =>
      rw [geometric, List.flatMap_cons, ih, map_mul_geometric, Nat.mul_succ,
        Nat.add_comm _ cosetCount, ← geometric_append, mul_right_comm]

theorem finerGenerator_pow_eight (h : d.depth = 3) :
    (d.finerGenerator * d.finerGenerator) ^ cosetCount = d.generator := by
  rw [← d.finerGenerator_pow, h, ← pow_two, ← pow_mul]
  rfl

/-- The coset points, interleaved, are one progression by the square of the finer root. -/
theorem cosetPoints_eq_geometric (h : d.depth = 3) :
    d.cosetPoints = geometric d.finerGenerator (d.finerGenerator * d.finerGenerator)
      (cosetCount * d.size) := by
  rw [cosetPoints, elements, ← finerGenerator_pow_eight h]
  exact (flatMap_geometric 1 d.finerGenerator _ d.size).trans (by rw [one_mul])

theorem cosetPoints_length (h : d.depth = 3) : d.cosetPoints.length = cosetCount * d.size := by
  rw [cosetPoints_eq_geometric h, geometric_length]

/-- No coset point is listed twice. -/
theorem cosetPoints_nodup (h : d.depth = 3) : d.cosetPoints.Nodup := cosetPoints_nodup_iff.2 h.ge

/-- No coset point lies in the domain itself. -/
theorem pow_size_ne_one_of_mem_cosetPoints (h : d.depth = 3) {x : Scalar}
    (hx : x ∈ d.cosetPoints) : x ^ d.size ≠ 1 := by
  rw [Ne, d.pow_size_of_mem_cosetPoints_iff hx, h]
  decide

/-! ### On the odd cosets -/

/-- Four progressions a step apart interleave to one progression. -/
theorem interleave_geometric {α : Type} (f : Scalar → α) (start ratio : Scalar) (n : Nat) :
    interleave ((geometric start (ratio ^ 4) n).map f)
        ((geometric (start * ratio) (ratio ^ 4) n).map f)
        ((geometric (start * ratio ^ 2) (ratio ^ 4) n).map f)
        ((geometric (start * ratio ^ 3) (ratio ^ 4) n).map f) =
      (geometric start ratio (4 * n)).map f := by
  induction n generalizing start with
  | zero => rfl
  | succ n ih =>
      have hblock : geometric start ratio (4 * (n + 1)) = start :: start * ratio ::
          start * ratio ^ 2 :: start * ratio ^ 3 ::
            geometric (start * ratio ^ 4) ratio (4 * n) := by
        rw [Nat.mul_succ, geometric, geometric, geometric, geometric]
        simp only [pow_succ, pow_zero, one_mul, mul_assoc]
      have hcomm : ∀ k, start * ratio ^ k * ratio ^ 4 = start * ratio ^ 4 * ratio ^ k := by
        intro k
        ring
      have hone : start * ratio * ratio ^ 4 = start * ratio ^ 4 * ratio := by ring
      simp only [geometric, List.map_cons, interleave, hcomm, hone, ih, hblock]

/-- The four coset evaluations, interleaved, are the values at the coset points in order. -/
theorem evaluateCosets_eq_ok {p : Poly} (hdepth : d.depth = 3) (h : p.coefs.length ≤ d.size) :
    d.evaluateCosets p = .ok (d.cosetPoints.map p.eval) := by
  obtain ⟨as, hpad, hlen, heval⟩ := padded_eq_ok h
  have hpow : ∀ k, d.finerGenerator * (d.finerGenerator * d.finerGenerator) ^ k =
      d.finerGenerator ^ (2 * k + 1) := by
    intro k
    rw [← pow_two, ← pow_mul, ← pow_succ']
  have hpoints := interleave_geometric p.eval d.finerGenerator
    (d.finerGenerator * d.finerGenerator) d.size
  have hsecond := hpow 1
  rw [pow_one] at hsecond
  rw [hpow, hpow, hsecond, show (d.finerGenerator * d.finerGenerator) ^ 4 = d.generator from
    finerGenerator_pow_eight hdepth] at hpoints
  simp only [evaluateCosets, hdepth, ne_eq, not_true_eq_false, if_false, hpad, bind, Except.bind,
    pure, Except.pure, cosetValues_eq hlen, pow_one]
  rw [cosetPoints_eq_geometric hdepth, cosetCount, ← hpoints]
  simp only [List.map_congr_left fun x _ => heval x]

/-- The quotient's domain finds the polynomial with given values on the odd cosets. -/
theorem Refines.interpolateCosets_isOk {q : Domain} (hq : q.Refines d) {vs : List Scalar}
    (h : vs.length = cosetCount * d.size) :
    ∃ p, q.interpolateCosets vs = .ok p ∧ p.coefs.length ≤ cosetCount * d.size ∧ p.coefs ≠ [] ∧
      d.cosetPoints.map p.eval = vs := by
  have hlen : vs.length = q.size := h.trans hq.size.symm
  obtain ⟨hle, hne, hvalues⟩ := ofCosetValues_spec hlen 1
  refine ⟨_, if_pos ⟨hq.quotientDepth, hlen⟩, hle.trans_eq hq.size, hne, ?_⟩
  rw [pow_one, hq.finerGenerator, hq.generator, hq.size] at hvalues
  rwa [cosetPoints_eq_geometric hq.depth]

/-! ### The polynomial that vanishes on the elements -/

/-- A function that is the same four terms on lists its values in equal blocks. -/
theorem map_geometric_of_periodic (f : Scalar → Scalar) (start ratio : Scalar)
    (hf : ∀ x, f (x * ratio ^ cosetCount) = f x) (n : Nat) :
    (geometric start ratio (cosetCount * n)).map f =
      (List.replicate n ((geometric start ratio cosetCount).map f)).flatten := by
  induction n generalizing start with
  | zero => rfl
  | succ n ih =>
      have hblock : (geometric (start * ratio ^ cosetCount) ratio cosetCount).map f =
          (geometric start ratio cosetCount).map f := by
        rw [mul_comm start, ← map_mul_geometric, List.map_map]
        apply List.map_congr_left
        intro x _
        rw [Function.comp_apply, mul_comm, hf]
      rw [Nat.mul_succ, Nat.add_comm _ cosetCount, ← geometric_append, List.map_append, ih, hblock,
        List.replicate_succ, List.flatten_cons]

/-- The inverses of `x ^ N - 1` at all points of the odd cosets. -/
theorem vanishingInverses_eq_ok (h : d.depth = 3) :
    ∃ inverses, d.vanishingInverses = .ok inverses ∧
      (List.replicate d.size inverses).flatten =
        d.cosetPoints.map fun x => (x ^ d.size - 1)⁻¹ := by
  refine ⟨_, by rw [vanishingInverses_eq, if_neg (by omega)], ?_⟩
  rw [cosetPoints_eq_geometric h, map_geometric_of_periodic]
  intro x
  rw [finerGenerator_pow_eight h, mul_pow, d.generator_primitive.pow_eq_one, mul_one]

end Domain

end PlonkKzg
