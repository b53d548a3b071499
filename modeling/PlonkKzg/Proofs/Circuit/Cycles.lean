import Mathlib.Logic.Function.Iterate
import PlonkKzg.Proofs.Circuit.Chains

/-!
# The cycles of the copy constraints

The positions that carry the same variable form one cycle of the permutation: who goes from one
position to the next one, and from the last one back to the first, comes past all of them and past
no other.

* `IsNext.lt`, `exists_iterate_of_le`, `exists_iterate_first` — from a position up to every later
  one with the same entry, and up to the last one and around to the first;
* `exists_iterate_iff` — which positions are reached from a position;
* `Circuit.wireAt`, `Circuit.getElem?_wiring` — the variable at a position, by its column and row;
* `Circuit.LinksCopies` — the table of the next positions, and its cycles;
* `Circuit.permutation_links` — when a circuit has a permutation, what it is, and how it fails;
* `Circuit.crowded` — a circuit with more variables than a table can have entries.
-/

namespace PlonkKzg

/-! ### Going from position to position -/

namespace IsNext

variable {all : List Variable} {p q t : Nat} {v : Variable}

theorem lt (h : IsNext all p t v) : t < all.length := (List.getElem?_eq_some_iff.1 h.there).1

/-- There is only one next position. -/
theorem unique (h : IsNext all p t v) (h' : IsNext all p q v) : t = q := by
  cases h with
  | next _ there after between =>
      cases h' with
      | next _ there' after' between' =>
          have htq : ¬t < q := fun hlt => between' t after hlt there
          have hqt : ¬q < t := fun hlt => between q after' hlt there'
          omega
      | first _ _ last' => exact absurd there (last' t after)
  | first _ there last least =>
      cases h' with
      | next _ there' after' => exact absurd there' (last q after')
      | first _ there' _ least' =>
          have htq : ¬t < q := fun hlt => least' t hlt there
          have hqt : ¬q < t := fun hlt => least q hlt there'
          omega

/-- The next position is not beyond any later one with the same entry. -/
theorem le_of_lt (h : IsNext all p t v) (hq : all[q]? = some v) (hpq : p < q) : p < t ∧ t ≤ q := by
  cases h with
  | next _ _ after between =>
      refine ⟨after, Nat.not_lt.1 fun hqt => between q hpq hqt hq⟩
  | first _ _ last => exact absurd hq (last q hpq)

end IsNext

section

variable {all : List Variable} {f : Nat → Nat}
  (hf : ∀ p v, all[p]? = some v → IsNext all p (f p) v) {p q : Nat} {v : Variable}
include hf

/-- All positions on the way have the same entry. -/
theorem getElem?_iterate (hp : all[p]? = some v) (k : Nat) : all[f^[k] p]? = some v := by
  induction k with
  | zero => exact hp
  | succ k ih =>
      rw [Function.iterate_succ_apply']
      exact (hf _ v ih).there

/-- Following the links leads from a position to every later one that carries its variable. -/
theorem exists_iterate_of_le (hp : all[p]? = some v) (hq : all[q]? = some v) (hpq : p ≤ q) :
    ∃ k, f^[k] p = q := by
  -- Each step brings the position nearer to `q` and not beyond.
  induction hd : q - p using Nat.strong_induction_on generalizing p with
  | _ d ih =>
      rcases Nat.eq_or_lt_of_le hpq with rfl | hlt
      · exact ⟨0, rfl⟩
      · have hnext := hf p v hp
        obtain ⟨hafter, hle⟩ := hnext.le_of_lt hq hlt
        obtain ⟨k, hk⟩ := ih (q - f p) (by omega) hnext.there hle rfl
        exact ⟨k + 1, hk⟩

/-- Behind the last position with an entry comes the first one. -/
theorem exists_iterate_first (hp : all[p]? = some v) :
    ∃ k, ∀ s < f^[k] p, all[s]? ≠ some v := by
  induction hd : all.length - p using Nat.strong_induction_on generalizing p with
  | _ d ih =>
      have hnext := hf p v hp
      have hlt := hnext.lt
      cases hnext with
      | first _ _ _ least => exact ⟨1, least⟩
      | next _ there after _ =>
          obtain ⟨k, hk⟩ := ih (all.length - f p) (by omega) there rfl
          exact ⟨k + 1, hk⟩

/-- The positions that are reached are those with the same entry. -/
theorem exists_iterate_iff (hp : all[p]? = some v) : (∃ k, f^[k] p = q) ↔ all[q]? = some v := by
  constructor
  · rintro ⟨k, rfl⟩
    exact getElem?_iterate hf hp k
  · intro hq
    -- First around to the least position of all, which is not after `q`, then up.
    obtain ⟨j, hj⟩ := exists_iterate_first hf hp
    have hle : f^[j] p ≤ q := Nat.not_lt.1 fun hlt => hj q hlt hq
    obtain ⟨k, hk⟩ := exists_iterate_of_le hf (getElem?_iterate hf hp j) hq hle
    refine ⟨k + j, ?_⟩
    rw [Function.iterate_add_apply, hk]

end

theorem isNext_getD_nextPositions {all : List Variable} {p : Nat} {v : Variable}
    (hp : all[p]? = some v) : IsNext all p ((nextPositions all).getD p 0) v := by
  obtain ⟨hlt, rfl⟩ := List.getElem?_eq_some_iff.1 hp
  exact nextPositions_isNext hlt

namespace Circuit

/-! ### The permutation of a circuit -/

/-- The variable of a position: that of its column on its row, variable 0 after the last gate. -/
def wireAt (c : Circuit) (n p : Nat) : Variable := (c.rowVariables (p % n)).toList.getD (p / n) 0

theorem getElem?_padded {c : Circuit} {n i : Nat} (h : c.size ≤ n) (hi : i < n)
    (f : Wires Variable → Variable) (hzero : f ⟨0, 0, 0⟩ = 0) :
    ((c.rows.map Gate.wires).map f ++ List.replicate (n - c.size) 0)[i]? =
      some (f (c.rowVariables i)) := by
  have hsize : c.size = ((c.rows.map Gate.wires).map f).length := by
    rw [List.length_map, List.length_map, rows_length]
  have hlen : i < ((c.rows.map Gate.wires).map f ++ List.replicate (n - c.size) 0).length := by
    rw [List.length_append, List.length_replicate, ← hsize]
    omega
  rw [List.getElem?_eq_getElem hlen, Option.some.injEq, ← List.getD_eq_getElem _ 0 hlen, hsize,
    getD_append_replicate hi, ← hzero, getD_map_map, rowVariables]

/-- The wiring at a position is the variable at that column and row. -/
theorem getElem?_wiring {c : Circuit} {n p : Nat} (h : c.size ≤ n) (hp : p < 3 * n) :
    (c.wiring n)[p]? = some (c.wireAt n p) := by
  have hn : 0 < n := by omega
  have hcolumn : p / n < 3 := Nat.div_lt_of_lt_mul (by rwa [Nat.mul_comm] at hp)
  have hrow : p % n < n := Nat.mod_lt p hn
  have hrows := c.rows_length
  let columns := (Wires.columns (c.rows.map (·.wires))).map (· ++ List.replicate (n - c.size) 0)
  have hlen : columns.HasLength n := by
    constructor <;>
      simp only [columns, Wires.columns, Wires.map, List.length_append, List.length_map,
        List.length_replicate] <;> omega
  have hjoined : (c.wiring n)[p]? = (columns.toList.getD (p / n) [])[p % n]? := by
    rw [← Wires.getElem?_joined hlen hcolumn hrow, Nat.mul_comm, Nat.div_add_mod]
    rfl
  rw [hjoined, wireAt]
  generalize p / n = column at hcolumn
  obtain rfl | rfl | rfl : column = 0 ∨ column = 1 ∨ column = 2 := by omega
  · exact getElem?_padded h hrow Wires.l rfl
  · exact getElem?_padded h hrow Wires.r rfl
  · exact getElem?_padded h hrow Wires.o rfl

theorem getElem?_wiring_eq_some_iff {c : Circuit} {n p : Nat} {v : Variable} (h : c.size ≤ n) :
    (c.wiring n)[p]? = some v ↔ p < 3 * n ∧ c.wireAt n p = v := by
  constructor
  · intro hv
    have hp : p < 3 * n := (List.getElem?_eq_some_iff.1 hv).1.trans_eq (wiring_length h)
    rw [getElem?_wiring h hp, Option.some.injEq] at hv
    exact ⟨hp, hv⟩
  · rintro ⟨hp, rfl⟩
    exact getElem?_wiring h hp

/-- A circuit is wired when every position carries an issued variable. -/
theorem wired_iff_wireAt {c : Circuit} {n : Nat} (h : c.size ≤ n) :
    c.Wired n ↔ ∀ p < 3 * n, c.wireAt n p < c.varCount := by
  constructor
  · intro hwired p hp
    exact hwired _ (List.mem_of_getElem? (getElem?_wiring h hp))
  · intro hall v hv
    obtain ⟨p, hp⟩ := List.mem_iff_getElem?.1 hv
    obtain ⟨hlt, rfl⟩ := (getElem?_wiring_eq_some_iff h).1 hp
    exact hall p hlt

/-- A table of the positions of `n` rows that links those with the same variable. -/
structure LinksCopies (c : Circuit) (n : Nat) (perm : List Nat) : Prop where
  /-- Every position stands in the table exactly once. -/
  bijective : perm.Perm (List.range (3 * n))
  /-- A position and its successor carry the same variable. -/
  wireAt_eq : ∀ p < 3 * n, c.wireAt n (perm.getD p 0) = c.wireAt n p
  /-- The successor is the next larger position with this variable, or there is no larger one and it
  is the smallest. -/
  next : ∀ p < 3 * n,
    (p < perm.getD p 0 ∧ ∀ s, p < s → s < perm.getD p 0 → c.wireAt n s ≠ c.wireAt n p) ∨
    ((∀ s, p < s → s < 3 * n → c.wireAt n s ≠ c.wireAt n p) ∧
      ∀ s < perm.getD p 0, c.wireAt n s ≠ c.wireAt n p)
  /-- The positions that are reached from a position are all positions with its variable. -/
  orbit : ∀ p < 3 * n, {q | ∃ k, (perm.getD · 0)^[k] p = q} =
    {q | q < 3 * n ∧ c.wireAt n q = c.wireAt n p}

theorem LinksCopies.isNext {c : Circuit} {n p : Nat} {perm : List Nat} (h : c.size ≤ n)
    (hperm : c.LinksCopies n perm) (hp : p < 3 * n) :
    IsNext (c.wiring n) p (perm.getD p 0) (c.wireAt n p) := by
  have hlen : perm.length = 3 * n := by
    rw [hperm.bijective.length_eq, List.length_range]
  have hlt : perm.getD p 0 < 3 * n := by
    rw [List.getD_eq_getElem _ _ (by omega)]
    exact List.mem_range.1 (hperm.bijective.mem_iff.1 (List.getElem_mem _))
  have hthere := (getElem?_wiring_eq_some_iff h).2 ⟨hlt, hperm.wireAt_eq p hp⟩
  rcases hperm.next p hp with ⟨hafter, hbetween⟩ | ⟨hlast, hleast⟩
  · refine .next (getElem?_wiring h hp) hthere hafter fun s hps hst hs => ?_
    exact hbetween s hps hst ((getElem?_wiring_eq_some_iff h).1 hs).2
  · refine .first (getElem?_wiring h hp) hthere (fun s hps hs => ?_) fun s hst hs => ?_
    · obtain ⟨hs3, heq⟩ := (getElem?_wiring_eq_some_iff h).1 hs
      exact hlast s hps hs3 heq
    · exact hleast s hst ((getElem?_wiring_eq_some_iff h).1 hs).2

/-- The table of next occurrences links the copies. -/
theorem linksCopies_nextPositions {c : Circuit} {n : Nat} (h : c.size ≤ n) :
    c.LinksCopies n (nextPositions (c.wiring n)) := by
  have hlen := wiring_length h
  have hnext : ∀ p < 3 * n,
      IsNext (c.wiring n) p ((nextPositions (c.wiring n)).getD p 0) (c.wireAt n p) :=
    fun p hp => isNext_getD_nextPositions (getElem?_wiring h hp)
  constructor
  · have hperm := nextPositions_perm (c.wiring n)
    rwa [hlen] at hperm
  · intro p hp
    exact ((getElem?_wiring_eq_some_iff h).1 (hnext p hp).there).2
  · intro p hp
    have hlt := (hnext p hp).lt
    -- Below the end of the wiring an entry other than that of `p` is another variable.
    have hne : ∀ s < 3 * n, (c.wiring n)[s]? ≠ some (c.wireAt n p) →
        c.wireAt n s ≠ c.wireAt n p := fun s hs hentry heq =>
      hentry ((getElem?_wiring_eq_some_iff h).2 ⟨hs, heq⟩)
    cases hnext p hp with
    | next _ _ after between =>
        exact .inl ⟨after, fun s hps hst => hne s (by omega) (between s hps hst)⟩
    | first _ _ last least =>
        exact .inr ⟨fun s hps hs => hne s hs (last s hps), fun s hst => hne s (by omega) (least s hst)⟩
  · intro p hp
    ext q
    have hreach := exists_iterate_iff (q := q) (fun p v => isNext_getD_nextPositions)
      (getElem?_wiring h hp)
    exact hreach.trans (getElem?_wiring_eq_some_iff h)

theorem fitsWord_iff_lt {count : Nat} : FitsWord count ↔ count < 2 ^ 64 := Iff.rfl

/-- The tables of a circuit fit if there are fewer than `2 ^ 59` variables and the positions take
fewer than `2 ^ 63` bytes. -/
theorem tabulable_iff_lt {c : Circuit} {n : Nat} :
    c.Tabulable n ↔ 24 * n < 2 ^ 63 ∧ c.varCount.toNat < 2 ^ 59 := by
  have hlimit : tableLimit = 2 ^ 63 := rfl
  simp only [Tabulable, TableFits, wordWidth, placeWidth, hlimit]
  omega

/-- Only one table links them. -/
theorem LinksCopies.eq_nextPositions {c : Circuit} {n : Nat} {perm : List Nat} (h : c.size ≤ n)
    (hperm : c.LinksCopies n perm) : perm = nextPositions (c.wiring n) := by
  have hlen : perm.length = 3 * n := by
    rw [hperm.bijective.length_eq, List.length_range]
  have hlen' : (nextPositions (c.wiring n)).length = 3 * n := by
    rw [nextPositions_length, wiring_length h]
  refine List.ext_getElem (hlen.trans hlen'.symm) ?_
  intro p hp hp'
  have hp3 : p < 3 * n := hlen ▸ hp
  have hnext := hperm.isNext h hp3
  have hnext' := isNext_getD_nextPositions (getElem?_wiring h hp3)
  rw [List.getD_eq_getElem _ _ hp] at hnext
  rw [List.getD_eq_getElem _ _ hp'] at hnext'
  exact hnext.unique hnext'

/-- The errors, each with its cause. -/
theorem permutation_eq_error_iff {c : Circuit} {n : Nat} {e : Fault} :
    c.permutation n = .error e ↔
      (e = .error .badArguments ∧ (n < c.size ∨ (c.Tabulable n ∧ ¬c.Wired n))) ∨
      (e = .misuse .wordOverflow ∧ c.size ≤ n ∧ ¬FitsWord (3 * n)) ∨
      (e = .misuse .tableTooLarge ∧ c.size ≤ n ∧ FitsWord (3 * n) ∧ ¬c.Tabulable n) := by
  by_cases hsize : n < c.size
  · simp [permutation, hsize, Nat.not_le.2 hsize, eq_comm]
  · have hle : c.size ≤ n := Nat.not_lt.1 hsize
    by_cases hword : FitsWord (3 * n)
    · by_cases htable : c.Tabulable n
      · rw [permutation_of_tabulable hle htable]
        by_cases hwired : c.Wired n <;> simp [hsize, hword, htable, hwired, eq_comm]
      · simp [permutation_eq_misuse hle hword htable, hle, hsize, hword, htable, eq_comm]
    · have htable : ¬c.Tabulable n := fun htable => hword htable.fitsWord
      simp [permutation_eq_wordOverflow hle hword, hle, hsize, hword, htable, eq_comm]

/-- A circuit has the permutation of its copy constraints, unless there are fewer rows than gates, a
position carries a variable that the circuit does not have, a word cannot count the positions, or a
table has no place in memory. One pass over the positions finds it. -/
theorem permutation_links (c : Circuit) (n : Nat) :
    (c.permutation n = .error (.error .badArguments) ↔ n < c.size ∨
      ((24 * n < 2 ^ 63 ∧ c.varCount.toNat < 2 ^ 59) ∧
        ∃ p < 3 * n, ¬c.wireAt n p < c.varCount)) ∧
    (c.permutation n = .error (.misuse .wordOverflow) ↔ c.size ≤ n ∧ 2 ^ 64 ≤ 3 * n) ∧
    (c.permutation n = .error (.misuse .tableTooLarge) ↔
      c.size ≤ n ∧ 3 * n < 2 ^ 64 ∧ ¬(24 * n < 2 ^ 63 ∧ c.varCount.toNat < 2 ^ 59)) ∧
    (∀ perm, c.permutation n = .ok perm ↔
      c.size ≤ n ∧ (24 * n < 2 ^ 63 ∧ c.varCount.toNat < 2 ^ 59) ∧
        (∀ p < 3 * n, c.wireAt n p < c.varCount) ∧ c.LinksCopies n perm) ∧
    c.permutation n = c.permutationByLinks n := by
  rw [← tabulable_iff_lt]
  refine ⟨?_, ?_, ?_, ?_, permutation_eq_permutationByLinks c n⟩
  · simp only [permutation_eq_error_iff, reduceCtorEq, false_and, or_false, true_and]
    by_cases hsize : n < c.size
    · simp only [hsize, true_or]
    · simp only [hsize, false_or, wired_iff_wireAt (Nat.not_lt.1 hsize), not_forall, exists_prop]
  · simp [permutation_eq_error_iff, fitsWord_iff_lt]
  · simp [permutation_eq_error_iff, fitsWord_iff_lt]
  · intro perm
    rw [permutation_eq_ok_iff]
    constructor
    · rintro ⟨hle, htable, hwired, rfl⟩
      exact ⟨hle, htable, (wired_iff_wireAt hle).1 hwired, linksCopies_nextPositions hle⟩
    · rintro ⟨hle, htable, hwired, hperm⟩
      exact ⟨hle, htable, (wired_iff_wireAt hle).2 hwired, hperm.eq_nextPositions hle⟩

/-- A product, a sum and an assertion on three variables and a fourth one that no gate has. The
cycles run through the columns. -/
theorem permutation_links_sample :
    (⟨[.mul 1 2 3, .add 3 1 1], [.constant 3 1], 5⟩ : Circuit).permutation 4 =
      .ok [5, 2, 8, 6, 4, 9, 7, 10, 1, 0, 11, 3] ∧
    (⟨[.mul 1 2 3, .add 3 1 1], [.constant 3 1], 5⟩ : Circuit).LinksCopies 4
      [5, 2, 8, 6, 4, 9, 7, 10, 1, 0, 11, 3] := by
  have hperm : (⟨[.mul 1 2 3, .add 3 1 1], [.constant 3 1], 5⟩ : Circuit).permutation 4 =
      .ok [5, 2, 8, 6, 4, 9, 7, 10, 1, 0, 11, 3] := by decide
  obtain ⟨-, -, -, hlinks⟩ := ((permutation_links _ 4).2.2.2.1 _).1 hperm
  exact ⟨hperm, hlinks⟩

/-- Three times this number of rows is two more than the last machine word. -/
example : empty.permutation 6148914691236517206 = .error (.misuse .wordOverflow) := by decide

/-- A circuit without gates, and with more variables than a table can have entries. -/
def crowded : Circuit := { empty with varCount := 2305843009213693952 }

/-- There are enough rows and all positions carry its variable 0, but it has no permutation. -/
theorem crowded_permutation : crowded.size ≤ 2 ∧
    (∀ p < 3 * 2, crowded.wireAt 2 p < crowded.varCount) ∧
    (∀ perm, crowded.permutation 2 ≠ .ok perm) ∧
    crowded.permutation 2 = .error (.misuse .tableTooLarge) := by
  have hmisuse : crowded.permutation 2 = .error (.misuse .tableTooLarge) := by decide
  refine ⟨by decide, by decide, ?_, hmisuse⟩
  intro perm hperm
  rw [hmisuse] at hperm
  cases hperm

end Circuit

end PlonkKzg
