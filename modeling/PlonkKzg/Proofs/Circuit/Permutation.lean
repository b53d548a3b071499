import Mathlib.Data.List.Perm.Subperm
import PlonkKzg.Proofs.Circuit.Rows

/-!
# The permutation of equal entries

Going from a position to the next one with the same entry, and from the last one back to the first,
is a permutation of the positions that stays among equal entries.

* `IsNext` — one position is the next one of another, or the first one after the last;
* `nextPositions_isNext` — the table has such a position for each;
* `IsNext.injective` — no position is the next one of two;
* `nextPositions_perm` — so that the table lists all positions;
* `Circuit.wired_iff` — when all positions carry variables of the circuit;
* `Circuit.permutation_eq_ok_iff` — when a circuit has the permutation of its wiring.
-/

namespace PlonkKzg

/-- The position `t` has the same entry as `p`, and either it is the first one after `p` that has,
or none after `p` has and `t` is the first one of all. -/
inductive IsNext (all : List Variable) (p t : Nat) (v : Variable) : Prop where
  | next (here : all[p]? = some v) (there : all[t]? = some v) (after : p < t)
      (between : ∀ s, p < s → s < t → all[s]? ≠ some v)
  | first (here : all[p]? = some v) (there : all[t]? = some v)
      (last : ∀ s, p < s → all[s]? ≠ some v) (least : ∀ s < t, all[s]? ≠ some v)

namespace IsNext

variable {all : List Variable} {p q t : Nat} {u v : Variable}

theorem here (h : IsNext all p t v) : all[p]? = some v := by
  cases h with
  | next here => exact here
  | first here => exact here

theorem there (h : IsNext all p t v) : all[t]? = some v := by
  cases h with
  | next _ there => exact there
  | first _ there => exact there

/-- Of two positions before the same next one, the former would have the latter in between. -/
theorem not_lt (hp : IsNext all p t v) (hq : IsNext all q t v) : ¬p < q := by
  intro hlt
  cases hp with
  | next _ _ _ between =>
      cases hq with
      | next hereq _ after => exact between q hlt after hereq
      | first hereq _ _ least => exact least p (by omega) (by assumption)
  | first _ _ last => exact last q hlt hq.here

/-- No two positions share their next occurrence. -/
theorem injective (hp : IsNext all p t u) (hq : IsNext all q t v) : p = q := by
  have huv : u = v := Option.some.inj (hp.there.symm.trans hq.there)
  subst huv
  have hpq := not_lt hp hq
  have hqp := not_lt hq hp
  omega

end IsNext

/-! ### The table of next positions -/

theorem getElem?_nextPositionsFrom {all rest : List Variable} {v : Variable} (p i : Nat)
    (h : rest[i]? = some v) :
    (nextPositionsFrom all p rest)[i]? = some ((match (rest.drop (i + 1)).idxOf? v with
      | some d => p + i + 1 + d
      | none => all.idxOf v) : Nat) := by
  induction rest generalizing p i with
  | nil => simp at h
  | cons u rest ih =>
      cases i with
      | zero =>
          obtain rfl : u = v := by simpa using h
          rfl
      | succ i =>
          have hi := ih (p + 1) i (by simpa using h)
          rw [nextPositionsFrom, List.getElem?_cons_succ, hi, List.drop_succ_cons]
          simp only [Nat.add_assoc, Nat.add_comm 1]

theorem nextPositions_length (all : List Variable) : (nextPositions all).length = all.length :=
  nextPositionsFrom_length all 0 all

/-- Each entry of the table is the next occurrence of the position it stands at. -/
theorem nextPositions_isNext {all : List Variable} {p : Nat} (hp : p < all.length) :
    IsNext all p ((nextPositions all).getD p 0) all[p] := by
  have hhere : all[p]? = some all[p] := List.getElem?_eq_getElem hp
  rw [nextPositions, List.getD_eq_getElem?_getD, getElem?_nextPositionsFrom 0 p hhere,
    Option.getD_some, Nat.zero_add]
  split
  · -- The rest of the list has the entry again, first at `d`.
    rename_i d hd
    obtain ⟨hlt, hfound, hbefore⟩ := List.idxOf?_eq_some_iff.1 hd
    rw [List.length_drop] at hlt
    rw [List.getElem_drop] at hfound
    have hafter : p < p + 1 + d := by omega
    refine .next hhere (List.getElem?_eq_some_iff.2 ⟨by omega, hfound⟩) hafter ?_
    intro s hps hst heq
    obtain ⟨e, rfl⟩ : ∃ e, s = p + 1 + e := ⟨s - (p + 1), by omega⟩
    have hs := hbefore e (by omega)
    rw [List.getElem_drop] at hs
    exact hs (List.getElem?_eq_some_iff.1 heq).2
  · -- The rest has it no more, so the first place of all follows.
    rename_i hnone
    have hmem : all[p] ∈ all := List.getElem_mem hp
    have hidx : all.idxOf all[p] < all.length := List.idxOf_lt_length_iff.2 hmem
    refine .first hhere ?_ ?_ ?_
    · rw [List.getElem?_eq_getElem hidx, List.getElem_idxOf hidx]
    · intro s hps heq
      obtain ⟨hs, heq⟩ := List.getElem?_eq_some_iff.1 heq
      obtain ⟨e, rfl⟩ : ∃ e, s = p + 1 + e := ⟨s - (p + 1), by omega⟩
      refine List.idxOf?_eq_none_iff.1 hnone (List.mem_iff_getElem.2 ⟨e, ?_, ?_⟩)
      · rw [List.length_drop]
        omega
      · rw [List.getElem_drop]
        exact heq
    · intro s hs heq
      obtain ⟨hlt, heq⟩ := List.getElem?_eq_some_iff.1 heq
      exact absurd heq (by simpa using List.not_of_lt_findIdx hs)

/-- The next position is a position. -/
theorem nextPositions_lt {all : List Variable} {t : Nat} (ht : t ∈ nextPositions all) :
    t < all.length := by
  obtain ⟨p, hp, rfl⟩ := List.mem_iff_getElem.1 ht
  have hnext := nextPositions_isNext (hp.trans_eq (nextPositions_length all))
  rw [List.getD_eq_getElem _ _ hp] at hnext
  exact (List.getElem?_eq_some_iff.1 hnext.there).1

theorem nextPositions_nodup (all : List Variable) : (nextPositions all).Nodup := by
  rw [List.nodup_iff_injective_get]
  intro i j hij
  have hni := nextPositions_isNext (i.isLt.trans_eq (nextPositions_length all))
  have hnj := nextPositions_isNext (j.isLt.trans_eq (nextPositions_length all))
  rw [List.getD_eq_getElem _ _ i.isLt] at hni
  rw [List.getD_eq_getElem _ _ j.isLt, ← List.get_eq_getElem, ← hij, List.get_eq_getElem] at hnj
  exact Fin.ext (IsNext.injective hni hnj)

/-- The table is a permutation of the positions. -/
theorem nextPositions_perm (all : List Variable) :
    (nextPositions all).Perm (List.range all.length) := by
  have hsub : nextPositions all ⊆ List.range all.length :=
    fun t ht => List.mem_range.2 (nextPositions_lt ht)
  refine (List.subperm_of_subset (nextPositions_nodup all) hsub).perm_of_length_le ?_
  rw [List.length_range, nextPositions_length]

namespace Circuit

/-- The wires of the gates are positions. -/
theorem mem_wiring {c : Circuit} {g : Gate} (hg : g ∈ c.rows) {v : Variable}
    (hv : v ∈ g.wires.toList) (n : Nat) : v ∈ c.wiring n := by
  have hcolumn : ∀ f : Wires Variable → Variable,
      f g.wires ∈ (c.rows.map (·.wires)).map f := fun f =>
    List.mem_map_of_mem (List.mem_map_of_mem hg)
  simp only [Wires.toList, List.mem_cons, List.not_mem_nil, or_false] at hv
  simp only [wiring, Wires.columns, Wires.map, List.mem_append]
  rcases hv with rfl | rfl | rfl
  · exact .inl (.inl (.inl (hcolumn Wires.l)))
  · exact .inl (.inr (.inl (hcolumn Wires.r)))
  · exact .inr (.inl (hcolumn Wires.o))

/-- The positions carry the wires of the gates, and variable 0 after the last gate. -/
theorem eq_zero_of_mem_wiring {c : Circuit} {n : Nat} {v : Variable} (hv : v ∈ c.wiring n) :
    v = 0 ∨ ∃ g ∈ c.rows, v ∈ g.wires.toList := by
  have hcolumn : ∀ f : Wires Variable → Variable, (∀ w : Wires Variable, f w ∈ w.toList) →
      v ∈ (c.rows.map (·.wires)).map f ++ List.replicate (n - c.size) 0 →
        v = 0 ∨ ∃ g ∈ c.rows, v ∈ g.wires.toList := by
    intro f hf hmem
    rcases List.mem_append.1 hmem with hgate | hpad
    · obtain ⟨w, hw, rfl⟩ := List.mem_map.1 hgate
      obtain ⟨g, hg, rfl⟩ := List.mem_map.1 hw
      exact .inr ⟨g, hg, hf g.wires⟩
    · exact .inl (List.eq_of_mem_replicate hpad)
  simp only [wiring, Wires.columns, Wires.map, List.mem_append (s := _ ++ _)] at hv
  rcases hv with (hl | hr) | ho
  · exact hcolumn Wires.l (fun w => by simp [Wires.toList]) hl
  · exact hcolumn Wires.r (fun w => by simp [Wires.toList]) hr
  · exact hcolumn Wires.o (fun w => by simp [Wires.toList]) ho

/-- All positions carry variables of the circuit if its gates do and there is variable 0. -/
theorem wired_iff {c : Circuit} {n : Nat} (hn : 0 < n) (h : c.size ≤ n) :
    c.Wired n ↔ 0 < c.varCount ∧ ∀ g ∈ c.rows, c.Admits g := by
  constructor
  · intro hwired
    refine ⟨?_, fun g hg v hv => hwired v (mem_wiring hg hv n)⟩
    -- Some position carries some variable, and that is below the number of variables.
    have hlen := wiring_length h
    obtain ⟨v, hv⟩ := List.exists_mem_of_length_pos (l := c.wiring n) (by omega)
    exact Nat.lt_of_le_of_lt (Nat.zero_le _) (hwired v hv)
  · rintro ⟨hzero, hadmits⟩ v hv
    rcases eq_zero_of_mem_wiring hv with rfl | ⟨g, hg, hmem⟩
    · exact hzero
    · exact hadmits g hg v hmem

/-- A table of the positions is too large long before a word cannot count them. -/
theorem Tabulable.fitsWord {c : Circuit} {n : Nat} (h : c.Tabulable n) : FitsWord (3 * n) := by
  have hbytes : 3 * n * 8 < 2 ^ 63 := h.1
  show 3 * n < 2 ^ 64
  omega

section

variable {c : Circuit} {n : Nat} (h : c.size ≤ n)
include h

/-- A size whose triple leaves the machine word stops the computation. -/
theorem permutation_eq_wordOverflow (hword : ¬FitsWord (3 * n)) :
    c.permutation n = .error (.misuse .wordOverflow) := by
  rw [permutation, if_neg (Nat.not_lt.2 h), if_pos hword]

theorem permutation_eq_misuse (hword : FitsWord (3 * n)) (htable : ¬c.Tabulable n) :
    c.permutation n = .error (.misuse .tableTooLarge) := by
  rw [permutation, if_neg (Nat.not_lt.2 h), if_neg (not_not.2 hword), if_pos htable]

/-- With room for the tables, the variables at the positions decide. -/
theorem permutation_of_tabulable (htable : c.Tabulable n) : c.permutation n =
    if c.Wired n then .ok (nextPositions (c.wiring n)) else .error (.error .badArguments) := by
  rw [permutation, if_neg (Nat.not_lt.2 h), if_neg (not_not.2 htable.fitsWord),
    if_neg (not_not.2 htable)]

end

/-- The exact conditions for a result, and what it is. -/
theorem permutation_eq_ok_iff {c : Circuit} {n : Nat} {perm : List Nat} :
    c.permutation n = .ok perm ↔
      c.size ≤ n ∧ c.Tabulable n ∧ c.Wired n ∧ perm = nextPositions (c.wiring n) := by
  by_cases htable : c.Tabulable n
  · by_cases hsize : c.size ≤ n
    · rw [permutation_of_tabulable hsize htable]
      by_cases hwired : c.Wired n <;> simp [hsize, htable, hwired, eq_comm]
    · simp [permutation, Nat.not_le.1 hsize, hsize]
  · unfold permutation
    split_ifs <;> simp [htable]

end Circuit

end PlonkKzg
