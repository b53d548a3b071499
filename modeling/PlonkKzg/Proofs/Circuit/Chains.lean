import PlonkKzg.Proofs.Circuit.Permutation

/-!
# The permutation in one pass

The next positions can be found without a search. All positions are visited in order, with tables of
the first and of the last position met so far of each variable: a visit links the last position of
its variable to its own. In the end the last position of each variable is linked to the first one.

* `Chains`, `Chains.visit`, `Chains.visitFrom` — the tables, one visit, and the visits of a list;
* `Chains.close`, `linkPositions` — the links back to the first positions, and the whole pass;
* `IsFirst`, `IsLast` — the first and the last position of a variable;
* `Chains.Visited` — what the tables hold after the visits of a list;
* `Chains.Visited.visit`, `Chains.Visited.visitFrom` — one more visit, and those of one more list;
* `linkPositions_eq_ok`, `linkPositions_eq_error` — the pass finds the next positions, unless a
  variable has no place in the tables;
* `Circuit.permutationByLinks`, `Circuit.permutation_eq_permutationByLinks` — so it finds the
  permutation of a circuit.
-/

namespace PlonkKzg

/-- For each position the one that it is linked to, and for each variable its first and its last
position so far. -/
structure Chains where
  next : List Nat
  first : List (Option Nat)
  last : List (Option Nat)

namespace Chains

/-- The tables for `count` variables and `positions` positions, before the first visit. -/
def start (count positions : Nat) : Chains :=
  ⟨List.replicate positions 0, List.replicate count none, List.replicate count none⟩

/-- The visit of a position, refused if the tables have no place for its variable. -/
def visit (s : Chains) (p : Nat) (v : Variable) : Except Error Chains :=
  match s.last[v.toNat]? with
  | some (some previous) =>
      .ok ⟨s.next.set previous p, s.first, s.last.set v.toNat (some p)⟩
  | some none => .ok ⟨s.next, s.first.set v.toNat (some p), s.last.set v.toNat (some p)⟩
  | none => .error .badArguments

/-- The visits of the positions from `p` on, which carry the variables of a list. -/
def visitFrom (s : Chains) (p : Nat) : List Variable → Except Error Chains
  | [] => .ok s
  | v :: rest => do
      let t ← s.visit p v
      t.visitFrom (p + 1) rest

/-- The link of a last position back to the first one. -/
def closeChain (next : List Nat) : Option Nat × Option Nat → List Nat
  | (some f, some l) => next.set l f
  | _ => next

/-- The links with all last positions linked back. -/
def close (s : Chains) : List Nat := (s.first.zip s.last).foldl closeChain s.next

end Chains

/-- The links of all positions, which carry variables below `count`. -/
def linkPositions (count : Nat) (all : List Variable) : Except Error (List Nat) := do
  let s ← (Chains.start count all.length).visitFrom 0 all
  pure s.close

/-! ### First and last positions -/

structure IsFirst (seen : List Variable) (v : Variable) (q : Nat) : Prop where
  here : seen[q]? = some v
  before : ∀ r < q, seen[r]? ≠ some v

structure IsLast (seen : List Variable) (v : Variable) (q : Nat) : Prop where
  here : seen[q]? = some v
  after : ∀ r, q < r → seen[r]? ≠ some v

section

variable {seen : List Variable} {v w : Variable} {q t : Nat}

theorem getElem?_concat_eq_some_iff :
    (seen ++ [w])[q]? = some v ↔ seen[q]? = some v ∨ (q = seen.length ∧ v = w) := by
  rcases Nat.lt_trichotomy q seen.length with hlt | rfl | hgt
  · rw [List.getElem?_append_left hlt]
    simp [Nat.ne_of_lt hlt]
  · simp [eq_comm]
  · have hlen : (seen ++ [w]).length ≤ q := by
      rw [List.length_append, List.length_singleton]
      omega
    rw [List.getElem?_eq_none hlen, List.getElem?_eq_none (Nat.le_of_lt hgt)]
    simp [Nat.ne_of_gt hgt]

theorem lt_of_getElem? (h : seen[q]? = some v) : q < seen.length :=
  (List.getElem?_eq_some_iff.1 h).1

/-- Reading one more position makes it the first of its variable only if the variable is new. -/
theorem isFirst_concat_iff : IsFirst (seen ++ [w]) v q ↔
    IsFirst seen v q ∨ (q = seen.length ∧ v = w ∧ w ∉ seen) := by
  constructor
  · rintro ⟨here, before⟩
    have hbefore : ∀ r < q, seen[r]? ≠ some v := fun r hr heq =>
      before r hr (getElem?_concat_eq_some_iff.2 (.inl heq))
    rcases getElem?_concat_eq_some_iff.1 here with hold | ⟨rfl, rfl⟩
    · exact .inl ⟨hold, hbefore⟩
    · refine .inr ⟨rfl, rfl, fun hmem => ?_⟩
      obtain ⟨r, hr⟩ := List.mem_iff_getElem?.1 hmem
      exact hbefore r (lt_of_getElem? hr) hr
  · rintro (⟨here, before⟩ | ⟨rfl, rfl, hnew⟩)
    · refine ⟨getElem?_concat_eq_some_iff.2 (.inl here), fun r hr heq => ?_⟩
      rcases getElem?_concat_eq_some_iff.1 heq with hold | ⟨rfl, -⟩
      · exact before r hr hold
      · exact Nat.lt_asymm hr (lt_of_getElem? here)
    · refine ⟨getElem?_concat_eq_some_iff.2 (.inr ⟨rfl, rfl⟩), fun r hr heq => ?_⟩
      rcases getElem?_concat_eq_some_iff.1 heq with hold | ⟨rfl, -⟩
      · exact hnew (List.mem_of_getElem? hold)
      · exact Nat.lt_irrefl _ hr

/-- Reading one more position makes it the last of its variable and leaves the others alone. -/
theorem isLast_concat_iff : IsLast (seen ++ [w]) v q ↔
    (q = seen.length ∧ v = w) ∨ (v ≠ w ∧ IsLast seen v q) := by
  constructor
  · rintro ⟨here, after⟩
    rcases getElem?_concat_eq_some_iff.1 here with hold | hnew
    · refine .inr ⟨?_, hold, fun r hr heq =>
        after r hr (getElem?_concat_eq_some_iff.2 (.inl heq))⟩
      rintro rfl
      exact after _ (lt_of_getElem? hold) (getElem?_concat_eq_some_iff.2 (.inr ⟨rfl, rfl⟩))
    · exact .inl hnew
  · rintro (⟨rfl, rfl⟩ | ⟨hne, here, after⟩)
    · refine ⟨getElem?_concat_eq_some_iff.2 (.inr ⟨rfl, rfl⟩), fun r hr heq => ?_⟩
      rcases getElem?_concat_eq_some_iff.1 heq with hold | ⟨rfl, -⟩
      · exact Nat.lt_asymm hr (lt_of_getElem? hold)
      · exact Nat.lt_irrefl _ hr
    · refine ⟨getElem?_concat_eq_some_iff.2 (.inl here), fun r hr heq => ?_⟩
      rcases getElem?_concat_eq_some_iff.1 heq with hold | ⟨-, rfl⟩
      · exact after r hr hold
      · exact hne rfl

/-- A variable that occurs has a last occurrence. -/
theorem exists_isLast (h : v ∈ seen) : ∃ q, IsLast seen v q := by
  induction seen using List.reverseRecOn with
  | nil => cases h
  | append_singleton seen w ih =>
      by_cases heq : v = w
      · exact ⟨_, isLast_concat_iff.2 (.inl ⟨rfl, heq⟩)⟩
      · obtain ⟨q, hq⟩ := ih (by simpa [heq] using h)
        exact ⟨q, isLast_concat_iff.2 (.inr ⟨heq, hq⟩)⟩

end

/-! ### Visits -/

namespace Chains

/-- What the tables hold after the visits of a list: the first and the last position of each of its
variables, and the link from each position to the next one with the same variable. -/
structure Visited (count positions : Nat) (seen : List Variable) (s : Chains) : Prop where
  next_length : s.next.length = positions
  first_length : s.first.length = count
  last_length : s.last.length = count
  first_iff : ∀ i q : Nat, s.first[i]? = some (some q) ↔ ∃ v, v.toNat = i ∧ IsFirst seen v q
  last_iff : ∀ i q : Nat, s.last[i]? = some (some q) ↔ ∃ v, v.toNat = i ∧ IsLast seen v q
  linked : ∀ (q t : Nat) (v : Variable), seen[q]? = some v → seen[t]? = some v → q < t →
    (∀ r, q < r → r < t → seen[r]? ≠ some v) → s.next[q]? = some t

variable {count positions : Nat} {seen : List Variable} {s : Chains}

/-- Before any position is read, the tables say what holds of the empty prefix. -/
theorem visited_start (count positions : Nat) :
    Visited count positions [] (start count positions) where
  next_length := List.length_replicate
  first_length := List.length_replicate
  last_length := List.length_replicate
  first_iff i q := by
    constructor
    · intro h
      simp [start, List.getElem?_replicate] at h
    · rintro ⟨v, -, hv⟩
      cases hv.here
  last_iff i q := by
    constructor
    · intro h
      simp [start, List.getElem?_replicate] at h
    · rintro ⟨v, -, hv⟩
      cases hv.here
  linked q t v h := by cases h

namespace Visited

variable (h : Visited count positions seen s) {w : Variable}
include h

theorem getElem?_last_of_mem (hw : w ∈ seen) :
    ∃ q, s.last[w.toNat]? = some (some q) := by
  obtain ⟨q, hq⟩ := exists_isLast hw
  exact ⟨q, (h.last_iff _ q).2 ⟨w, rfl, hq⟩⟩

theorem isLast_of_getElem? {q : Nat} (hq : s.last[w.toNat]? = some (some q)) :
    IsLast seen w q := by
  obtain ⟨v, hv, hlast⟩ := (h.last_iff _ q).1 hq
  rwa [← UInt64.toNat_inj.1 hv]

/-- After a visit its own position is the last one of its variable. -/
theorem getElem?_set_last_iff (hw : w.toNat < count) (i q : Nat) :
    (s.last.set w.toNat (some seen.length))[i]? = some (some q) ↔
      ∃ v, v.toNat = i ∧ IsLast (seen ++ [w]) v q := by
  simp only [isLast_concat_iff]
  by_cases hi : w.toNat = i
  · rw [List.getElem?_set, if_pos hi, if_pos (h.last_length.symm ▸ hw)]
    constructor
    · intro hq
      exact ⟨w, hi, .inl ⟨(Option.some.inj (Option.some.inj hq)).symm, rfl⟩⟩
    · rintro ⟨v, hv, ⟨rfl, -⟩ | ⟨hne, -⟩⟩
      · rfl
      · exact absurd (UInt64.toNat_inj.1 (hv.trans hi.symm)) hne
  · rw [List.getElem?_set_ne hi, h.last_iff]
    constructor
    · rintro ⟨v, hv, hlast⟩
      refine ⟨v, hv, .inr ⟨?_, hlast⟩⟩
      rintro rfl
      exact hi hv
    · rintro ⟨v, hv, ⟨-, rfl⟩ | ⟨-, hlast⟩⟩
      · exact absurd hv hi
      · exact ⟨v, hv, hlast⟩

/-- The visit of a variable that was met before. -/
theorem visit_again (hlen : seen.length < positions) (hw : w.toNat < count) {previous : Nat}
    (hlast : IsLast seen w previous) :
    Visited count positions (seen ++ [w])
      ⟨s.next.set previous seen.length, s.first, s.last.set w.toNat (some seen.length)⟩ where
  next_length := (List.length_set ..).trans h.next_length
  first_length := h.first_length
  last_length := (List.length_set ..).trans h.last_length
  first_iff i q := by
    have hold : w ∈ seen := List.mem_of_getElem? hlast.here
    simp only [isFirst_concat_iff, hold, not_true_eq_false, and_false, or_false]
    exact h.first_iff i q
  last_iff := h.getElem?_set_last_iff hw
  linked q t v hq ht hqt between := by
    have hbetween : ∀ r, q < r → r < t → seen[r]? ≠ some v := fun r hqr hrt heq =>
      between r hqr hrt (getElem?_concat_eq_some_iff.2 (.inl heq))
    rw [List.getElem?_set]
    rcases getElem?_concat_eq_some_iff.1 ht with htold | ⟨rfl, rfl⟩
    · -- Both positions were visited before, and the last one is not linked to a later one.
      have hqold : seen[q]? = some v := by
        refine (getElem?_concat_eq_some_iff.1 hq).resolve_right ?_
        rintro ⟨rfl, -⟩
        exact Nat.lt_asymm hqt (lt_of_getElem? htold)
      have hne : previous ≠ q := by
        rintro rfl
        obtain rfl : w = v := Option.some.inj (hlast.here.symm.trans hqold)
        exact hlast.after t hqt htold
      rw [if_neg hne]
      exact h.linked q t v hqold htold hqt hbetween
    · -- The later position is the one of the visit, the other one the last before it.
      have hqold : seen[q]? = some v :=
        (getElem?_concat_eq_some_iff.1 hq).resolve_right fun hnew => Nat.ne_of_lt hqt hnew.1
      have heq : previous = q := by
        have hpq : ¬previous < q := fun hlt => hlast.after q hlt hqold
        have hqp : ¬q < previous := fun hlt =>
          hbetween previous hlt (lt_of_getElem? hlast.here) hlast.here
        omega
      have hin : previous < s.next.length := by
        rw [h.next_length]
        exact Nat.lt_trans (lt_of_getElem? hlast.here) hlen
      rw [if_pos heq, if_pos hin]

/-- The visit of a variable for the first time. -/
theorem visit_new (hw : w.toNat < count) (hnew : w ∉ seen) :
    Visited count positions (seen ++ [w])
      ⟨s.next, s.first.set w.toNat (some seen.length),
        s.last.set w.toNat (some seen.length)⟩ where
  next_length := h.next_length
  first_length := (List.length_set ..).trans h.first_length
  last_length := (List.length_set ..).trans h.last_length
  first_iff i q := by
    simp only [isFirst_concat_iff]
    by_cases hi : w.toNat = i
    · rw [List.getElem?_set, if_pos hi, if_pos (h.first_length.symm ▸ hw)]
      constructor
      · intro hq
        exact ⟨w, hi, .inr ⟨(Option.some.inj (Option.some.inj hq)).symm, rfl, hnew⟩⟩
      · rintro ⟨v, hv, hfirst | ⟨rfl, -⟩⟩
        · obtain rfl : v = w := UInt64.toNat_inj.1 (hv.trans hi.symm)
          exact absurd (List.mem_of_getElem? hfirst.here) hnew
        · rfl
    · rw [List.getElem?_set_ne hi, h.first_iff]
      constructor
      · rintro ⟨v, hv, hfirst⟩
        exact ⟨v, hv, .inl hfirst⟩
      · rintro ⟨v, hv, hfirst | ⟨-, rfl, -⟩⟩
        · exact ⟨v, hv, hfirst⟩
        · exact absurd hv hi
  last_iff := h.getElem?_set_last_iff hw
  linked q t v hq ht hqt between := by
    -- The position of the visit carries a variable that no other one carries.
    have hold : ∀ {r}, (seen ++ [w])[r]? = some v → v ≠ w → seen[r]? = some v := fun hr hne =>
      (getElem?_concat_eq_some_iff.1 hr).resolve_right fun hlast => hne hlast.2
    have hne : v ≠ w := by
      rintro rfl
      have hlate : ∀ {r}, (seen ++ [v])[r]? = some v → r = seen.length := fun hr =>
        ((getElem?_concat_eq_some_iff.1 hr).resolve_left fun hmem =>
          hnew (List.mem_of_getElem? hmem)).1
      rw [hlate hq, hlate ht] at hqt
      exact Nat.lt_irrefl _ hqt
    exact h.linked q t v (hold hq hne) (hold ht hne) hqt fun r hqr hrt heq =>
      between r hqr hrt (getElem?_concat_eq_some_iff.2 (.inl heq))

/-- One pass of the loop body extends the invariant by the position it reads. -/
theorem visit (hlen : seen.length < positions) (hw : w.toNat < count) :
    ∃ t, s.visit seen.length w = .ok t ∧ Visited count positions (seen ++ [w]) t := by
  obtain ⟨entry, hentry⟩ : ∃ entry, s.last[w.toNat]? = some entry :=
    ⟨_, List.getElem?_eq_getElem (h.last_length.symm ▸ hw)⟩
  cases entry with
  | some previous =>
      refine ⟨_, ?_, h.visit_again hlen hw (h.isLast_of_getElem? hentry)⟩
      simp only [Chains.visit, hentry]
  | none =>
      refine ⟨_, ?_, h.visit_new hw fun hmem => ?_⟩
      · simp only [Chains.visit, hentry]
      · obtain ⟨q, hq⟩ := h.getElem?_last_of_mem hmem
        cases hentry.symm.trans hq

omit h in
/-- The whole loop keeps the invariant, by induction over the positions still to be read. -/
theorem visitFrom {rest : List Variable} (h : Visited count positions seen s)
    (hlen : seen.length + rest.length ≤ positions) (hrest : ∀ v ∈ rest, v.toNat < count) :
    ∃ t, s.visitFrom seen.length rest = .ok t ∧ Visited count positions (seen ++ rest) t := by
  induction rest generalizing s seen with
  | nil => exact ⟨s, rfl, by rwa [List.append_nil]⟩
  | cons w rest ih =>
      rw [List.length_cons] at hlen
      obtain ⟨t, hvisit, ht⟩ := h.visit (by omega) (hrest w List.mem_cons_self)
      have hnext : (seen ++ [w]).length = seen.length + 1 := by
        rw [List.length_append, List.length_singleton]
      obtain ⟨u, hrun, hu⟩ := ih ht (by omega) fun v hv => hrest v (List.mem_cons_of_mem w hv)
      refine ⟨u, ?_, ?_⟩
      · rw [Chains.visitFrom, hvisit, ← hrun, hnext]
        rfl
      · rwa [List.append_assoc] at hu

/-- A variable without a place in the tables ends the visits. -/
theorem visitFrom_of_not_lt {rest : List Variable} (hlen : seen.length + rest.length ≤ positions)
    (hrest : ¬∀ v ∈ rest, v.toNat < count) :
    s.visitFrom seen.length rest = .error .badArguments := by
  induction rest generalizing s seen with
  | nil => exact absurd (fun v hv => nomatch hv) hrest
  | cons w rest ih =>
      rw [List.length_cons] at hlen
      rw [Chains.visitFrom]
      by_cases hw : w.toNat < count
      · obtain ⟨t, hvisit, ht⟩ := h.visit (by omega) hw
        have hnext : (seen ++ [w]).length = seen.length + 1 := by
          rw [List.length_append, List.length_singleton]
        have hrest' : ¬∀ v ∈ rest, v.toNat < count := fun hall =>
          hrest (List.forall_mem_cons.2 ⟨hw, hall⟩)
        rw [hvisit, ← hnext]
        exact ih ht (by omega) hrest'
      · have hplace : s.last[w.toNat]? = none :=
          List.getElem?_eq_none (h.last_length.symm ▸ Nat.not_lt.1 hw)
        simp only [Chains.visit, hplace]
        rfl

end Visited

/-! ### Closing -/

theorem closeChain_length (next : List Nat) (ends : Option Nat × Option Nat) :
    (closeChain next ends).length = next.length := by
  unfold closeChain
  split
  · exact List.length_set ..
  · rfl

theorem foldl_closeChain_length (ends : List (Option Nat × Option Nat)) (next : List Nat) :
    (ends.foldl closeChain next).length = next.length := by
  induction ends generalizing next with
  | nil => rfl
  | cons e ends ih => rw [List.foldl_cons, ih, closeChain_length]

/-- Closing a chain writes at its last position and nowhere else. -/
theorem getElem?_closeChain_of_ne {next : List Nat} {e : Option Nat × Option Nat} {q : Nat}
    (h : e.2 ≠ some q) : (closeChain next e)[q]? = next[q]? := by
  unfold closeChain
  split
  · rename_i f l
    exact List.getElem?_set_ne fun heq => h (congrArg some heq)
  · rfl

theorem getElem?_foldl_closeChain_of_ne {ends : List (Option Nat × Option Nat)} {next : List Nat}
    {q : Nat} (h : ∀ e ∈ ends, e.2 ≠ some q) :
    (ends.foldl closeChain next)[q]? = next[q]? := by
  induction ends generalizing next with
  | nil => rfl
  | cons e ends ih =>
      obtain ⟨he, hends⟩ := List.forall_mem_cons.1 h
      rw [List.foldl_cons, ih hends, getElem?_closeChain_of_ne he]

/-- A position that is the last one of a single chain is linked to the first one. -/
theorem getElem?_foldl_closeChain {ends : List (Option Nat × Option Nat)} {next : List Nat}
    {f q : Nat} (hq : q < next.length) (hmem : (some f, some q) ∈ ends)
    (hsame : ∀ e ∈ ends, e.2 = some q → e.1 = some f) :
    (ends.foldl closeChain next)[q]? = some f := by
  induction ends generalizing next with
  | nil => cases hmem
  | cons e ends ih =>
      obtain ⟨he, hends⟩ := List.forall_mem_cons.1 hsame
      rw [List.foldl_cons]
      by_cases hlater : ∃ e' ∈ ends, e'.2 = some q
      · obtain ⟨⟨f', l'⟩, hin, rfl⟩ := hlater
        obtain rfl : f' = some f := hends _ hin rfl
        exact ih (hq.trans_eq (closeChain_length next e).symm) hin hends
      · have hnone : ∀ e' ∈ ends, e'.2 ≠ some q := fun e' hin heq => hlater ⟨e', hin, heq⟩
        have hhead : e = (some f, some q) := by
          refine ((List.mem_cons.1 hmem).resolve_right fun hin => ?_).symm
          exact hnone _ hin rfl
        rw [getElem?_foldl_closeChain_of_ne hnone, hhead, closeChain,
          List.getElem?_set_self hq]

theorem Visited.close_length (h : Visited count positions seen s) : s.close.length = positions :=
  (foldl_closeChain_length _ _).trans h.next_length

/-- The entries of both tables that belong together are those of one variable. -/
theorem Visited.mem_zip {f l : Option Nat} (h : (f, l) ∈ s.first.zip s.last) :
    ∃ i : Nat, s.first[i]? = some f ∧ s.last[i]? = some l := by
  obtain ⟨i, hi⟩ := List.mem_iff_getElem?.1 h
  exact ⟨i, List.getElem?_zip_eq_some.1 hi⟩

/-- Once all chains are closed, each position is linked to the next one. -/
theorem Visited.getElem?_close {q t : Nat} {v : Variable} (h : Visited count positions seen s)
    (hlen : seen.length = positions) (hnext : IsNext seen q t v) : s.close[q]? = some t := by
  have hq : q < s.next.length := by
    rw [h.next_length, ← hlen]
    exact lt_of_getElem? hnext.here
  cases hnext with
  | next here there after between =>
      -- Only last positions are written to, and `q` is none.
      rw [close, getElem?_foldl_closeChain_of_ne]
      · exact h.linked q t v here there after between
      · rintro ⟨f, l⟩ hmem rfl
        obtain ⟨i, -, hl⟩ := mem_zip hmem
        obtain ⟨u, -, hu⟩ := (h.last_iff i q).1 hl
        obtain rfl : u = v := Option.some.inj (hu.here.symm.trans here)
        exact hu.after t after there
  | first here there last least =>
      have hfirst : IsFirst seen v t := ⟨there, least⟩
      have hlast : IsLast seen v q := ⟨here, last⟩
      -- The chain of `v` is closed at `q`, and no other chain ends there.
      refine getElem?_foldl_closeChain hq ?_ ?_
      · refine List.mem_iff_getElem?.2 ⟨v.toNat, List.getElem?_zip_eq_some.2 ⟨?_, ?_⟩⟩
        · exact (h.first_iff _ t).2 ⟨v, rfl, hfirst⟩
        · exact (h.last_iff _ q).2 ⟨v, rfl, hlast⟩
      · rintro ⟨f, l⟩ hmem rfl
        obtain ⟨i, hf, hl⟩ := mem_zip hmem
        obtain ⟨u, rfl, hu⟩ := (h.last_iff i q).1 hl
        obtain rfl : u = v := Option.some.inj (hu.here.symm.trans here)
        have hentry := (h.first_iff u.toNat t).2 ⟨u, rfl, hfirst⟩
        exact Option.some.inj (hf.symm.trans hentry)

/-- After all positions are read, closing the chains gives the next occurrence of every position. -/
theorem Visited.close_eq (h : Visited count positions seen s) (hlen : seen.length = positions) :
    s.close = nextPositions seen := by
  refine List.ext_getElem? fun q => ?_
  by_cases hq : q < seen.length
  · have hnext := nextPositions_isNext hq
    have hin : q < (nextPositions seen).length := by rwa [nextPositions_length]
    rw [h.getElem?_close hlen hnext, List.getD_eq_getElem _ _ hin, List.getElem?_eq_getElem hin]
  · rw [List.getElem?_eq_none, List.getElem?_eq_none]
    · rw [nextPositions_length]
      exact Nat.not_lt.1 hq
    · rw [h.close_length, ← hlen]
      exact Nat.not_lt.1 hq

end Chains

/-- One pass finds the next positions. -/
theorem linkPositions_eq_ok {count : Nat} {all : List Variable} (h : ∀ v ∈ all, v.toNat < count) :
    linkPositions count all = .ok (nextPositions all) := by
  have hstart := Chains.visited_start count all.length
  obtain ⟨s, hrun, hs⟩ := hstart.visitFrom (Nat.le_of_eq (Nat.zero_add _)) h
  rw [List.length_nil] at hrun
  rw [List.nil_append] at hs
  rw [linkPositions, hrun, ← hs.close_eq rfl]
  rfl

/-- It fails at a variable that is not below `count`. -/
theorem linkPositions_eq_error {count : Nat} {all : List Variable}
    (h : ¬∀ v ∈ all, v.toNat < count) : linkPositions count all = .error .badArguments := by
  have hstart := Chains.visited_start count all.length
  have hrun := hstart.visitFrom_of_not_lt (Nat.le_of_eq (Nat.zero_add _)) h
  rw [List.length_nil] at hrun
  rw [linkPositions, hrun]
  rfl

example : linkPositions 2 [0, 1, 0, 1, 1] = .ok [2, 3, 0, 4, 1] := by rfl

namespace Circuit

/-- The permutation of the wire positions, found in one pass over them. The number of positions is
counted and the tables are made before the pass. -/
def permutationByLinks (c : Circuit) (n : Nat) : Except Fault (List Nat) := do
  if n < c.size then throw (.error .badArguments)
  requireWord (3 * n)
  requireTable (3 * n) wordWidth
  requireTable c.varCount.toNat placeWidth
  (linkPositions c.varCount.toNat (c.wiring n)).mapError .error

variable {c : Circuit} {n : Nat}

/-- On the wiring of a circuit the loops give the permutation, or refuse an unissued variable. -/
theorem linkPositions_wiring : (linkPositions c.varCount.toNat (c.wiring n)).mapError Fault.error =
    if c.Wired n then .ok (nextPositions (c.wiring n)) else .error (.error .badArguments) := by
  by_cases hwired : c.Wired n
  · have hall : ∀ v ∈ c.wiring n, v.toNat < c.varCount.toNat := hwired
    rw [if_pos hwired, linkPositions_eq_ok hall]
    rfl
  · have hsome : ¬∀ v ∈ c.wiring n, v.toNat < c.varCount.toNat := hwired
    rw [if_neg hwired, linkPositions_eq_error hsome]
    rfl

/-- The pass finds the permutation, and fails where there is none and as that does. -/
theorem permutation_eq_permutationByLinks (c : Circuit) (n : Nat) :
    c.permutation n = c.permutationByLinks n := by
  unfold permutationByLinks
  by_cases hsize : n < c.size
  · rw [permutation, if_pos hsize, if_pos hsize]
    rfl
  · have hle : c.size ≤ n := Nat.not_lt.1 hsize
    rw [if_neg hsize, linkPositions_wiring]
    by_cases hword : FitsWord (3 * n)
    · by_cases hpositions : TableFits (3 * n) wordWidth
      · by_cases hvariables : TableFits c.varCount.toNat placeWidth
        · rw [permutation_of_tabulable hle ⟨hpositions, hvariables⟩]
          simp only [requireWord, requireTable, hword, hpositions, hvariables, if_true]
          rfl
        · rw [permutation_eq_misuse hle hword fun htable => hvariables htable.2]
          simp only [requireWord, requireTable, hword, hpositions, hvariables, if_true, if_false]
          rfl
      · rw [permutation_eq_misuse hle hword fun htable => hpositions htable.1]
        simp only [requireWord, requireTable, hword, hpositions, if_true, if_false]
        rfl
    · rw [permutation_eq_wordOverflow hle hword]
      simp only [requireWord, hword, if_false]
      rfl

end Circuit

end PlonkKzg
