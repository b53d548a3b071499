import Mathlib.Data.List.GetD
import PlonkKzg.Proofs.Field.Inversion
import PlonkKzg.Proofs.Outcome

/-!
# Inversion in place

A list can be inverted where it stands. On the way forward the products before all elements are
collected, and a zero stops everything; one inversion gives the inverse of the whole product; on the
way back each element is replaced by its inverse and taken out of the product. Nothing is written
before all that can fail is done, so a list that cannot be inverted is left as it was.

* `Scalar.productsBefore`, `Scalar.invertAt`, `Scalar.invertFirst`, `Scalar.invertInPlace` — the way
  forward, one step of the way back, all of its steps, and the whole;
* `Scalar.productsBefore_eq_ok`, `Scalar.productsBefore_eq_error` — what is collected;
* `Scalar.invertedFrom` — the list in the middle of the way back;
* `Scalar.invertAt_run`, `Scalar.invertFirst_run` — a step moves the middle by one, and all steps
  move it to the front;
* `Scalar.invertInPlace_run_of_notMem`, `Scalar.invertInPlace_run_of_mem` — the outcome and the list
  afterwards;
* `Scalar.invertAll_eq_mapM` — the inverses are those of the elements one by one;
* `Scalar.invertInPlace_atomic` — all of it.
-/

namespace PlonkKzg

namespace Scalar

/-- The product of `acc` and all that is before an element, for each element, and that of `acc` and
all elements, if none is zero. -/
def productsBefore (acc : Scalar) : List Scalar → Except AlgebraError (List Scalar × Scalar)
  | [] => .ok ([], acc)
  | x :: xs =>
      if x = 0 then .error .notInvertible
      else do
        let (befores, total) ← productsBefore (acc * x) xs
        pure (acc :: befores, total)

/-- Replaces one element by its inverse, which is the inverse of the product up to the element times
the product before it. What is left of the inverse, without the element, is given back. -/
def invertAt (befores : List Scalar) (n : Nat) (inv : Scalar) : StateM (List Scalar) Scalar := do
  let xs ← get
  set (xs.set n (inv * befores.getD n 0))
  pure (inv * xs.getD n 0)

/-- Replaces the first `n` elements, the last of them first. -/
def invertFirst (befores : List Scalar) : Nat → Scalar → StateM (List Scalar) Unit
  | 0, _ => pure ()
  | n + 1, inv => do
      let inv' ← invertAt befores n inv
      invertFirst befores n inv'

/-- Replaces all elements. -/
def invertInPlace : ExceptT AlgebraError (StateM (List Scalar)) Unit := do
  let xs ← get
  let (befores, total) ← productsBefore 1 xs
  let inv ← inverse total
  invertFirst befores xs.length inv

variable {xs : List Scalar}

/-! ### The way forward -/

/-- The forward pass collects the products of what stands before each entry. -/
theorem productsBefore_eq_ok (h : 0 ∉ xs) (acc : Scalar) :
    ∃ befores, productsBefore acc xs = .ok (befores, acc * xs.prod) ∧
      ∀ i < xs.length, befores.getD i 0 = acc * (xs.take i).prod := by
  induction xs generalizing acc with
  | nil => exact ⟨[], by simp [productsBefore], fun i hi => absurd hi (Nat.not_lt_zero i)⟩
  | cons x xs ih =>
      obtain ⟨hx, hrest⟩ := not_or.1 (List.mem_cons.not.1 h)
      obtain ⟨befores, hok, hbefores⟩ := ih hrest (acc * x)
      refine ⟨acc :: befores, ?_, fun i hi => ?_⟩
      · rw [productsBefore, if_neg (Ne.symm hx), hok, List.prod_cons, mul_assoc]
        rfl
      · cases i with
        | zero => simp
        | succ i =>
            rw [List.getD_cons_succ, hbefores i (Nat.lt_of_succ_lt_succ hi), List.take_succ_cons,
              List.prod_cons, mul_assoc]

/-- The forward pass stops at a zero. -/
theorem productsBefore_eq_error (h : 0 ∈ xs) (acc : Scalar) :
    productsBefore acc xs = .error .notInvertible := by
  induction xs generalizing acc with
  | nil => cases h
  | cons x xs ih =>
      rw [productsBefore]
      by_cases hx : x = 0
      · rw [if_pos hx]
      · rw [if_neg hx, ih ((List.mem_cons.1 h).resolve_left (Ne.symm hx))]
        rfl

theorem productsBefore_isOk_iff {acc : Scalar} :
    (∃ r, productsBefore acc xs = .ok r) ↔ 0 ∉ xs := by
  constructor
  · rintro ⟨r, hr⟩ h
    rw [productsBefore_eq_error h] at hr
    cases hr
  · intro h
    obtain ⟨befores, hok, -⟩ := productsBefore_eq_ok h acc
    exact ⟨_, hok⟩

/-! ### The way back -/

/-- The list whose first `n` elements are still there, and all others are replaced. -/
def invertedFrom (xs : List Scalar) (n : Nat) : List Scalar := xs.take n ++ (xs.drop n).map (·⁻¹)

theorem invertedFrom_length (xs : List Scalar) : invertedFrom xs xs.length = xs := by
  rw [invertedFrom, List.take_length, List.drop_length, List.map_nil, List.append_nil]

variable {befores : List Scalar}

/-- One step of the backward pass: the last entry not yet inverted is replaced by its inverse. -/
theorem invertAt_run (h : 0 ∉ xs) {n : Nat} (hn : n < xs.length)
    (hbefore : befores.getD n 0 = (xs.take n).prod) :
    (invertAt befores n (xs.take (n + 1)).prod⁻¹).run (invertedFrom xs (n + 1)) =
      ((xs.take n).prod⁻¹, invertedFrom xs n) := by
  have hlen : (xs.take n).length = n := List.length_take_of_le hn.le
  have hx : xs[n] ≠ 0 := fun hzero => h (hzero ▸ List.getElem_mem hn)
  have hprod : (xs.take n).prod ≠ 0 :=
    List.prod_ne_zero fun hzero => h (List.mem_of_mem_take hzero)
  have htake : xs.take (n + 1) = xs.take n ++ [xs[n]] := (List.take_append_getElem hn).symm
  -- The element is at the end of the part that is still there.
  have hlist : invertedFrom xs (n + 1) = xs.take n ++ xs[n] :: (xs.drop (n + 1)).map (·⁻¹) := by
    rw [invertedFrom, htake, List.append_assoc, List.singleton_append]
  have hread : (invertedFrom xs (n + 1)).getD n 0 = xs[n] := by
    rw [hlist, List.getD_append_right _ _ _ _ hlen.le, hlen, Nat.sub_self, List.getD_cons_zero]
  have hwritten : (invertedFrom xs (n + 1)).set n xs[n]⁻¹ = invertedFrom xs n := by
    rw [hlist, List.set_append_right _ _ hlen.le, hlen, Nat.sub_self, List.set_cons_zero,
      invertedFrom, List.drop_eq_getElem_cons hn, List.map_cons]
  obtain ⟨hback, hhere⟩ := inv_mul_parts hprod hx
  have hstep : (invertAt befores n (xs.take (n + 1)).prod⁻¹).run (invertedFrom xs (n + 1)) =
      ((xs.take (n + 1)).prod⁻¹ * (invertedFrom xs (n + 1)).getD n 0,
        (invertedFrom xs (n + 1)).set n ((xs.take (n + 1)).prod⁻¹ * befores.getD n 0)) := rfl
  rw [hstep, hread, hbefore, htake, List.prod_append, List.prod_singleton, hback, hhere, hwritten]

/-- The middle moves to the front, with the first element last. -/
theorem invertFirst_run (h : 0 ∉ xs) {n : Nat} (hn : n ≤ xs.length)
    (hbefores : ∀ i < n, befores.getD i 0 = (xs.take i).prod) :
    (invertFirst befores n (xs.take n).prod⁻¹).run (invertedFrom xs n) = ((), xs.map (·⁻¹)) := by
  induction n with
  | zero => rfl
  | succ n ih =>
      rw [invertFirst, StateT.run_bind, invertAt_run h hn (hbefores n (Nat.lt_succ_self n))]
      exact ih (Nat.le_of_succ_le hn) fun i hi => hbefores i (Nat.lt_succ_of_lt hi)

/-! ### The whole -/

theorem inverse_eq_ok {x : Scalar} (hx : x ≠ 0) : inverse x = .ok x⁻¹ := by
  rw [inverse, Residue.inverse?, if_neg hx]

theorem inverse_zero : inverse 0 = .error .notInvertible := rfl

theorem invertInPlace_run_of_ok {total inv : Scalar}
    (hforward : productsBefore 1 xs = .ok (befores, total)) (hinverse : inverse total = .ok inv) :
    invertInPlace.run.run xs = (.ok (), ((invertFirst befores xs.length inv).run xs).2) := by
  show ((liftM (productsBefore 1 xs) >>= fun r => liftM (inverse r.2) >>= fun inv =>
    liftM (invertFirst r.1 xs.length inv) :
      ExceptT AlgebraError (StateM (List Scalar)) Unit)).run.run xs = _
  rw [hforward]
  show ((liftM (inverse total) >>= fun inv => liftM (invertFirst befores xs.length inv) :
    ExceptT AlgebraError (StateM (List Scalar)) Unit)).run.run xs = _
  rw [hinverse]
  rfl

/-- Without a zero every entry is replaced by its inverse. -/
theorem invertInPlace_run_of_notMem (h : 0 ∉ xs) :
    invertInPlace.run.run xs = (.ok (), xs.map (·⁻¹)) := by
  obtain ⟨befores, hforward, hbefores⟩ := productsBefore_eq_ok h 1
  have hback := invertFirst_run h (Nat.le_refl _) fun i hi => (hbefores i hi).trans (one_mul _)
  rw [List.take_length, invertedFrom_length] at hback
  rw [one_mul] at hforward
  rw [invertInPlace_run_of_ok hforward (inverse_eq_ok (List.prod_ne_zero h)), hback]

/-- With a zero the list is left as it was. -/
theorem invertInPlace_run_of_mem (h : 0 ∈ xs) :
    invertInPlace.run.run xs = (.error .notInvertible, xs) := by
  show ((liftM (productsBefore 1 xs) >>= fun r => liftM (inverse r.2) >>= fun inv =>
    liftM (invertFirst r.1 xs.length inv) :
      ExceptT AlgebraError (StateM (List Scalar)) Unit)).run.run xs = _
  rw [productsBefore_eq_error h]
  rfl

/-! ### One inversion for all -/

/-- One by one, a list without zeros inverts. -/
theorem mapM_inverse_of_notMem (h : 0 ∉ xs) : xs.mapM inverse = .ok (xs.map (·⁻¹)) :=
  mapM_eq_ok_map fun _ hx => inverse_eq_ok fun hzero => h (hzero ▸ hx)

theorem mapM_inverse_of_mem (h : 0 ∈ xs) : xs.mapM inverse = .error .notInvertible := by
  induction xs with
  | nil => cases h
  | cons x xs ih =>
      rw [List.mapM_cons]
      by_cases hx : x = 0
      · rw [hx, inverse_zero]
        rfl
      · rw [inverse_eq_ok hx, ih ((List.mem_cons.1 h).resolve_left (Ne.symm hx))]
        rfl

/-- The inverses of the elements one by one, or the error of the first that has none. -/
theorem invertAll_eq_mapM (xs : List Scalar) : invertAll xs = xs.mapM inverse := by
  by_cases h : 0 ∈ xs
  · rw [invertAll_eq_error h, mapM_inverse_of_mem h]
  · rw [invertAll_eq_ok h, mapM_inverse_of_notMem h]

/-- A list without a zero is replaced by the inverses of its elements, each at the place of its
element; a list with a zero is not invertible and is left as it was. The inversion of the whole product
does not fail where the way forward did not. The inverses, and the error, are those of the elements
one by one. -/
theorem invertInPlace_atomic (xs : List Scalar) :
    (0 ∉ xs → ∃ ys, invertInPlace.run.run xs = (.ok (), ys) ∧
      List.Forall₂ (fun x y => inverse x = .ok y ∧ x * y = 1) xs ys) ∧
    (0 ∈ xs → invertInPlace.run.run xs = (.error .notInvertible, xs)) ∧
    (∀ befores total, productsBefore 1 xs = .ok (befores, total) →
      total = xs.prod ∧ ∃ inv, inverse total = .ok inv) ∧
    (∀ ys, xs.mapM inverse = .ok ys ↔ invertInPlace.run.run xs = (.ok (), ys)) ∧
    invertAll xs = xs.mapM inverse := by
  refine ⟨fun h => ⟨_, invertInPlace_run_of_notMem h, ?_⟩, invertInPlace_run_of_mem, ?_, fun ys => ?_,
    invertAll_eq_mapM xs⟩
  · rw [List.forall₂_map_right_iff, List.forall₂_same]
    intro x hx
    have hne : x ≠ 0 := fun hzero => h (hzero ▸ hx)
    have hmul := mul_inv_cancel₀ hne
    exact ⟨inverse_eq_ok hne, hmul⟩
  · intro befores total hforward
    have h : 0 ∉ xs := productsBefore_isOk_iff.1 ⟨_, hforward⟩
    obtain ⟨befores', hforward', -⟩ := productsBefore_eq_ok h 1
    obtain ⟨-, rfl⟩ := Prod.mk.inj (Except.ok.inj (hforward.symm.trans hforward'))
    rw [one_mul]
    exact ⟨rfl, _, inverse_eq_ok (List.prod_ne_zero h)⟩
  · by_cases h : 0 ∈ xs
    · rw [mapM_inverse_of_mem h, invertInPlace_run_of_mem h]
      constructor <;> intro heq <;> cases heq
    · rw [mapM_inverse_of_notMem h, invertInPlace_run_of_notMem h]
      constructor <;> intro heq <;> cases heq <;> rfl

example : invertInPlace.run.run [.ofNat 2, 0, .ofNat 3] =
    (.error .notInvertible, [.ofNat 2, 0, .ofNat 3]) := by rfl

end Scalar

end PlonkKzg
