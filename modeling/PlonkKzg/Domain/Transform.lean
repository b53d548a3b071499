import PlonkKzg.Domain.Basic
import PlonkKzg.Domain.BitReversal

/-!
# Fast Fourier transforms

Evaluation of `2 ^ k` coefficients at the powers of a root of unity of order `2 ^ k`, by halving.
There are two ways to halve, which differ in what is in bit-reversed order.

* `Decimation` — in frequency: coefficients in natural order, values bit-reversed; in time:
  coefficients bit-reversed, values in natural order;
* `decimateInFrequency` — sums and twisted differences of the halves, each transformed further;
* `decimateInTime` — the transformed halves, combined to sums and differences;
* `Domain.transform`, `Domain.inverseTransform` — on a coset of a domain;
* `Domain.fft`, `Domain.fftInverse` — the same for data of the right length, which is a debug
  assertion: any other is a misuse in a build with assertions, the one that is meant here.
-/

namespace PlonkKzg

/-- Which side of a transform is in bit-reversed order. -/
inductive Decimation where
  /-- Coefficients are bit-reversed. -/
  | time
  /-- Values are bit-reversed. -/
  | frequency
deriving DecidableEq, Repr

/-- The values at the powers of `w`, in bit-reversed order, of `2 ^ k` coefficients. The first half
of them belongs to the even powers, which see the sums of the halves of the coefficients; the
second half belongs to the odd powers, which see the differences, twisted by the powers of `w`. -/
def decimateInFrequency : Nat → Scalar → List Scalar → List Scalar
  | 0, _, as => as
  | k + 1, w, as =>
      let low := as.take (Nat.pow 2 k)
      let high := as.drop (Nat.pow 2 k)
      let sums := List.zipWith (· + ·) low high
      let differences := List.zipWith (· - ·) low high
      decimateInFrequency k (w * w) sums ++
        decimateInFrequency k (w * w)
          (List.zipWith (· * ·) differences (geometric 1 w (Nat.pow 2 k)))

/-- The values at the powers of `w` of `2 ^ k` coefficients in bit-reversed order. The first half
of the data are the coefficients of even powers, the second half those of odd ones. -/
def decimateInTime : Nat → Scalar → List Scalar → List Scalar
  | 0, _, as => as
  | k + 1, w, as =>
      let even := decimateInTime k (w * w) (as.take (Nat.pow 2 k))
      let odd := decimateInTime k (w * w) (as.drop (Nat.pow 2 k))
      let twisted := List.zipWith (· * ·) odd (geometric 1 w (Nat.pow 2 k))
      List.zipWith (· + ·) even twisted ++ List.zipWith (· - ·) even twisted

theorem decimateInFrequency_length {k : Nat} (w : Scalar) {as : List Scalar}
    (h : as.length = Nat.pow 2 k) : (decimateInFrequency k w as).length = Nat.pow 2 k := by
  induction k generalizing w as with
  | zero => exact h
  | succ k ih =>
      rw [two_pow_succ] at h
      rw [decimateInFrequency, List.length_append, ih, ih, two_pow_succ]
      · omega
      · simp only [List.length_zipWith, List.length_take, List.length_drop, geometric_length]
        omega
      · simp only [List.length_zipWith, List.length_take, List.length_drop]
        omega

theorem decimateInTime_length {k : Nat} (w : Scalar) {as : List Scalar}
    (h : as.length = Nat.pow 2 k) : (decimateInTime k w as).length = Nat.pow 2 k := by
  induction k generalizing w as with
  | zero => exact h
  | succ k ih =>
      rw [two_pow_succ] at h
      have hl : (as.take (Nat.pow 2 k)).length = Nat.pow 2 k := by
        simp only [List.length_take]
        omega
      have hr : (as.drop (Nat.pow 2 k)).length = Nat.pow 2 k := by
        simp only [List.length_drop]
        omega
      simp only [decimateInTime, List.length_append, List.length_zipWith, ih _ hl, ih _ hr,
        geometric_length, two_pow_succ]
      omega

/-- The transform by a root of unity of order `2 ^ k`. -/
def decimate (dec : Decimation) (k : Nat) (w : Scalar) (as : List Scalar) : List Scalar :=
  match dec with
  | .frequency => decimateInFrequency k w as
  | .time => decimateInTime k w as

namespace Domain

/-- The powers of a shift that belong to the coefficients, in the order of the coefficients. -/
def coefShifts (d : Domain) (dec : Decimation) (shift : Scalar) : List Scalar :=
  let powers := geometric 1 shift d.size
  match dec with
  | .frequency => powers
  | .time => bitReverse powers

/-- The values of coefficients on a coset. The shift of the coset goes into the coefficients. -/
def transform (d : Domain) (dec : Decimation) (coset : Nat) (as : List Scalar) : List Scalar :=
  decimate dec d.log d.generator
    (List.zipWith (· * ·) as (d.coefShifts dec (d.cosetShift coset)))

/-- The coefficients of values on a coset: the transform by the inverse root, divided by the size,
and the shift taken out. With decimation in frequency the coefficients come out bit-reversed, with
decimation in time the values go in bit-reversed. -/
def inverseTransform (d : Domain) (dec : Decimation) (coset : Nat) (vs : List Scalar) :
    List Scalar :=
  let shifts := geometric d.sizeInv (power d.finerGeneratorInv coset) d.size
  List.zipWith (· * ·) (decimate dec d.log d.generatorInv vs)
    (match dec with
      | .frequency => bitReverse shifts
      | .time => shifts)

/-- The transform of data of the right length. -/
def fft (d : Domain) (dec : Decimation) (coset : Nat) (as : List Scalar) :
    Except Fault (List Scalar) :=
  if as.length = d.size then .ok (d.transform dec coset as)
  else .error (.misuse .lengthMismatch)

/-- The inverse transform of data of the right length. -/
def fftInverse (d : Domain) (dec : Decimation) (coset : Nat) (vs : List Scalar) :
    Except Fault (List Scalar) :=
  if vs.length = d.size then .ok (d.inverseTransform dec coset vs)
  else .error (.misuse .lengthMismatch)

end Domain

end PlonkKzg
