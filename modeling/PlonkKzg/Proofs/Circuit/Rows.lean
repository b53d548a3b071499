import Mathlib.Algebra.BigOperators.Intervals
import Mathlib.Data.List.GetD
import PlonkKzg.Prover.Preprocessed
import PlonkKzg.Proofs.Field.Primality
import PlonkKzg.Proofs.Outcome

/-!
# Columns by rows and by positions

Three columns of `n` items can be read row by row, or as `3 n` positions one after the other.

* `Wires.HasLength` — all three columns have `n` items;
* `Wires.atRow`, `Wires.rows_eq_map` — the items of one row;
* `Wires.joined`, `Wires.getElem?_joined`, `Wires.prod_atRow` — all positions, column after column;
* `Circuit.rowValues` — the values of an assignment on the wires of one row;
* `Circuit.wireColumns_eq_ok_iff`, `Circuit.atRow_layout` — when an assignment can be laid out, and
  that its columns hold these values;
* `Circuit.joined_layout` — at each position stands the value of its variable;
* `Circuit.rowGate`, `Circuit.rowGate_eq_zero_iff` — the gate equation row by row.
-/

namespace PlonkKzg

namespace Wires

variable {α : Type}

/-- All three columns have the same number of items. -/
structure HasLength (w : Wires (List α)) (n : Nat) : Prop where
  l : w.l.length = n
  r : w.r.length = n
  o : w.o.length = n

theorem forall_mem_toList {w : Wires α} {P : α → Prop} :
    (∀ a ∈ w.toList, P a) ↔ P w.l ∧ P w.r ∧ P w.o := by
  simp [toList]

theorem hasLength_iff {w : Wires (List α)} {n : Nat} :
    w.HasLength n ↔ ∀ column ∈ w.toList, column.length = n := by
  rw [forall_mem_toList]
  exact ⟨fun h => ⟨h.l, h.r, h.o⟩, fun ⟨hl, hr, ho⟩ => ⟨hl, hr, ho⟩⟩

theorem mapM_eq_ok_map {ε β : Type} {f : α → Except ε β} {g : α → β} {w : Wires α}
    (h : ∀ a ∈ w.toList, f a = .ok (g a)) : w.mapM f = .ok (w.map g) :=
  mapM_eq_ok_iff.2 (forall_mem_toList.1 h)

def atRow [Zero α] (w : Wires (List α)) (i : Nat) : Wires α := w.map (·.getD i 0)

/-- The items of all positions: the left column, the right one, the output one. -/
def joined (w : Wires (List α)) : List α := w.l ++ w.r ++ w.o

theorem eq_map_range [Zero α] {as : List α} {n : Nat} (h : as.length = n) :
    as = (List.range n).map (as.getD · 0) := by
  refine List.ext_getElem (by simp [h]) ?_
  intro i hi _
  rw [List.getElem_map, List.getElem_range, List.getD_eq_getElem _ _ hi]

/-- Transposing columns of length `n` gives their `n` rows. -/
theorem rows_eq_map [Zero α] {w : Wires (List α)} {n : Nat} (h : w.HasLength n) :
    w.rows = (List.range n).map w.atRow := by
  have hl := eq_map_range h.l
  have hr := eq_map_range h.r
  have ho := eq_map_range h.o
  rw [rows, hl, hr, ho, List.zip_map', List.zipWith_map, List.zipWith_self]
  rfl

section

variable [Zero α] {w : Wires (List α)} {n : Nat} (h : w.HasLength n) {i : Nat}
include h

theorem joined_getD_l (hi : i < n) : w.joined.getD i 0 = (w.atRow i).l := by
  rw [joined, List.append_assoc, List.getD_append _ _ _ _ (by rw [h.l]; exact hi)]
  rfl

theorem joined_getD_r (hi : i < n) : w.joined.getD (n + i) 0 = (w.atRow i).r := by
  rw [joined, List.append_assoc, List.getD_append_right _ _ _ _ (by rw [h.l]; omega),
    List.getD_append _ _ _ _ (by rw [h.l, h.r]; omega), h.l, Nat.add_sub_cancel_left]
  rfl

theorem joined_getD_o : w.joined.getD (2 * n + i) 0 = (w.atRow i).o := by
  have hlen : (w.l ++ w.r).length = 2 * n := by
    rw [List.length_append, h.l, h.r]
    omega
  rw [joined, List.getD_append_right _ _ _ _ (by omega), hlen, Nat.add_sub_cancel_left]
  rfl

end

/-- The joined columns at `column * n + i` hold entry `i` of that column. -/
theorem getElem?_joined {w : Wires (List α)} {n column i : Nat} (h : w.HasLength n)
    (hcolumn : column < 3) (hi : i < n) :
    w.joined[column * n + i]? = (w.toList.getD column [])[i]? := by
  have hl := h.l
  have hr := h.r
  have hlr : (w.l ++ w.r).length = 2 * n := by
    rw [List.length_append, hl, hr]
    omega
  match column, hcolumn with
  | 0, _ =>
      rw [Nat.zero_mul, Nat.zero_add, joined, List.append_assoc,
        List.getElem?_append_left (by omega)]
      rfl
  | 1, _ =>
      rw [Nat.one_mul, joined, List.append_assoc, List.getElem?_append_right (by omega), hl,
        Nat.add_sub_cancel_left, List.getElem?_append_left (by omega)]
      rfl
  | 2, _ =>
      rw [joined, List.getElem?_append_right (by omega), hlr, Nat.add_sub_cancel_left]
      rfl

/-- A product over rows and wires is a product over positions. -/
theorem prod_atRow {w s : Wires (List Scalar)} {n : Nat} (hw : w.HasLength n) (hs : s.HasLength n)
    (f : Scalar → Scalar → Scalar) :
    ∏ i ∈ Finset.range n, (f (w.atRow i).l (s.atRow i).l * f (w.atRow i).r (s.atRow i).r *
        f (w.atRow i).o (s.atRow i).o) =
      ∏ p ∈ Finset.range (3 * n), f (w.joined.getD p 0) (s.joined.getD p 0) := by
  rw [show 3 * n = n + n + n by omega, Finset.prod_range_add, Finset.prod_range_add,
    Finset.prod_mul_distrib, Finset.prod_mul_distrib]
  refine congrArg₂ _ (congrArg₂ _ ?_ ?_) ?_
  · apply Finset.prod_congr rfl
    intro i hi
    rw [joined_getD_l hw (Finset.mem_range.1 hi), joined_getD_l hs (Finset.mem_range.1 hi)]
  · apply Finset.prod_congr rfl
    intro i hi
    rw [joined_getD_r hw (Finset.mem_range.1 hi), joined_getD_r hs (Finset.mem_range.1 hi)]
  · apply Finset.prod_congr rfl
    intro i _
    rw [← Nat.two_mul, joined_getD_o hw, joined_getD_o hs]

end Wires

namespace Selectors

variable {α : Type}

theorem forall_mem_toList {q : Selectors α} {P : α → Prop} :
    (∀ a ∈ q.toList, P a) ↔ P q.ql ∧ P q.qr ∧ P q.qm ∧ P q.qo ∧ P q.qk := by
  simp [toList]

theorem mapM_eq_ok_map {ε β : Type} {f : α → Except ε β} {g : α → β} {q : Selectors α}
    (h : ∀ a ∈ q.toList, f a = .ok (g a)) : q.mapM f = .ok (q.map g) :=
  mapM_eq_ok_iff.2 (forall_mem_toList.1 h)

def atRow [Zero α] (q : Selectors (List α)) (i : Nat) : Selectors α := q.map (·.getD i 0)

end Selectors

namespace Circuit

/-- The value that an assignment gives to a variable, zero beyond its end. -/
def valueOf (w : List Scalar) (v : Variable) : Scalar := w.getD v.toNat 0

/-- The variables on the wires of a row, variable 0 after the last gate. -/
def rowVariables (c : Circuit) (i : Nat) : Wires Variable :=
  (c.rows.map (·.wires)).getD i ⟨0, 0, 0⟩

def rowValues (c : Circuit) (w : List Scalar) (i : Nat) : Wires Scalar :=
  (c.rowVariables i).map (valueOf w)

/-- A lookup succeeds inside the assignment, with the value there. -/
theorem lookup_eq_ok_iff {w : List Scalar} {v : Variable} {a : Scalar} :
    Gate.lookup w v = .ok a ↔ v.toNat < w.length ∧ a = valueOf w v := by
  rw [Gate.lookup, valueOf, List.getD_eq_getElem?_getD]
  by_cases hv : v.toNat < w.length
  · simp [hv, eq_comm]
  · simp [hv]

theorem lookup_eq_error {w : List Scalar} {v : Variable} {e : Error}
    (h : Gate.lookup w v = .error e) : e = .invalidWitness := by
  unfold Gate.lookup at h
  split at h
  · cases h
  · cases h
    rfl

/-- A gate has its wire values when all three indices are inside the assignment. -/
theorem wireValues_eq_ok_iff {g : Gate} {w : List Scalar} {ws : Wires Scalar} :
    g.wireValues w = .ok ws ↔
      (∀ v ∈ g.wires.toList, v.toNat < w.length) ∧ ws = g.wires.map (valueOf w) := by
  simp only [Gate.wireValues, Wires.mapM_eq_ok_iff, lookup_eq_ok_iff, Wires.toList, Wires.map,
    Wires.ext_iff, List.mem_cons, List.not_mem_nil, or_false, forall_eq_or_imp, forall_eq]
  tauto

/-- A gate evaluates when its indices are inside the assignment, to the gate equation's value. -/
theorem eval_eq_ok_iff {g : Gate} {w : List Scalar} {a : Scalar} :
    g.eval w = .ok a ↔ (∀ v ∈ g.wires.toList, v.toNat < w.length) ∧
      a = gateValue g.selectors (g.wires.map (valueOf w)) := by
  simp only [Gate.eval, bind_eq_ok_iff, wireValues_eq_ok_iff, pure_eq_ok_iff]
  constructor
  · rintro ⟨ws, ⟨hwires, rfl⟩, rfl⟩
    exact ⟨hwires, rfl⟩
  · rintro ⟨hwires, rfl⟩
    exact ⟨_, ⟨hwires, rfl⟩, rfl⟩

/-! ### The layout of an assignment -/

/-- Whether an assignment has values for all wires of all gates. -/
def Assigned (c : Circuit) (w : List Scalar) : Prop :=
  ∀ g ∈ c.rows, ∀ v ∈ g.wires.toList, v.toNat < w.length

instance (c : Circuit) (w : List Scalar) : Decidable (c.Assigned w) :=
  @List.decidableBAll Gate (fun g => ∀ v ∈ g.wires.toList, v.toNat < w.length)
    (fun g => List.decidableBAll (·.toNat < w.length) g.wires.toList) c.rows

/-- The values of an assignment on all rows, column by column. -/
def layout (c : Circuit) (w : List Scalar) (n : Nat) : Wires (List Scalar) :=
  (Wires.columns (c.rows.map fun g => g.wires.map (valueOf w))).map
    (· ++ List.replicate (n - c.size) (valueOf w 0))

/-- All rows have their wire values when the circuit is assigned. -/
theorem mapM_wireValues_eq_ok_iff {c : Circuit} {w : List Scalar} {values : List (Wires Scalar)} :
    c.rows.mapM (·.wireValues w) = .ok values ↔
      c.Assigned w ∧ values = c.rows.map fun g => g.wires.map (valueOf w) := by
  constructor
  · intro h
    have hassigned : c.Assigned w := by
      intro g hg
      obtain ⟨ws, hws⟩ := exists_eq_ok_of_mapM_eq_ok h g hg
      exact (wireValues_eq_ok_iff.1 hws).1
    rw [mapM_eq_ok_map fun g hg => wireValues_eq_ok_iff.2 ⟨hassigned g hg, rfl⟩] at h
    exact ⟨hassigned, (Except.ok.inj h).symm⟩
  · rintro ⟨hassigned, rfl⟩
    exact mapM_eq_ok_map fun g hg => wireValues_eq_ok_iff.2 ⟨hassigned g hg, rfl⟩

/-- The exact conditions for wire columns, and what they hold. -/
theorem wireColumns_eq_ok_iff {c : Circuit} {w : List Scalar} {n : Nat}
    {columns : Wires (List Scalar)} :
    c.wireColumns w n = .ok columns ↔
      w ≠ [] ∧ (c.varCount.toNat ≤ w.length ∧ c.size ≤ n) ∧ TableFits n scalarWidth ∧
        c.Assigned w ∧ columns = c.layout w n := by
  cases w with
  | nil => simp [wireColumns, throw, throwThe, MonadExceptOf.throw]
  | cons a w =>
      simp only [wireColumns, List.head?_cons, require_eq_ok_iff, bind_eq_ok_iff, lift_eq_ok_iff,
        pure_eq_ok_iff, mapM_wireValues_eq_ok_iff]
      constructor
      · rintro ⟨hsize, ⟨⟩, hfits, values, ⟨hassigned, rfl⟩, rfl⟩
        refine ⟨List.cons_ne_nil a w, ?_, requireTable_eq_ok_iff.1 hfits, hassigned, rfl⟩
        omega
      · rintro ⟨-, hsize, hfits, hassigned, rfl⟩
        refine ⟨by omega, (), requireTable_eq_ok_iff.2 hfits, _, ⟨hassigned, rfl⟩, rfl⟩

theorem layout_hasLength {c : Circuit} {n : Nat} (h : c.size ≤ n) (w : List Scalar) :
    (c.layout w n).HasLength n := by
  have hrows := c.rows_length
  constructor <;>
    simp only [layout, Wires.columns, Wires.map, List.length_append, List.length_map,
      List.length_replicate, hrows] <;> omega

/-- At each position stands the value of its variable. -/
theorem joined_layout (c : Circuit) (w : List Scalar) (n : Nat) :
    (c.layout w n).joined = (c.wiring n).map (valueOf w) := by
  simp only [layout, wiring, Wires.joined, Wires.columns, Wires.map, List.map_append, List.map_map,
    List.map_replicate, Function.comp_def]

/-- An item of a padded column, if the padding is the default. -/
theorem getD_append_replicate {α : Type} {as : List α} {a d : α} {n i : Nat} (h : i < n) :
    (as ++ List.replicate (n - as.length) a).getD i d = as.getD i a := by
  rcases Nat.lt_or_ge i as.length with hi | hi
  · rw [List.getD_append _ _ _ _ hi, List.getD_eq_getElem _ _ hi, List.getD_eq_getElem _ _ hi]
  · rw [List.getD_append_right _ _ _ _ hi, List.getD_eq_default _ _ hi,
      List.getD_eq_getElem _ _ (by rw [List.length_replicate]; omega), List.getElem_replicate]

theorem getD_map_map {α β : Type} (f : α → β) (as : List α) (i : Nat) (d : α) :
    (as.map f).getD i (f d) = f (as.getD i d) := List.getD_map ..

/-- Row `i` of the laid out columns holds that row's values. -/
theorem atRow_layout {c : Circuit} {n i : Nat} (hi : i < n) (w : List Scalar) :
    (c.layout w n).atRow i = c.rowValues w i := by
  have hrows : ∀ f : Wires Scalar → Scalar,
      ((c.rows.map fun g => g.wires.map (valueOf w)).map f ++
        List.replicate (n - c.size) (f (Wires.map (valueOf w) ⟨0, 0, 0⟩))).getD i 0 =
          f (c.rowValues w i) := by
    intro f
    have hlen : c.size = ((c.rows.map fun g => g.wires.map (valueOf w)).map f).length := by
      rw [List.length_map, List.length_map, rows_length]
    have hvalues := getD_map_map (Wires.map (valueOf w)) (c.rows.map (·.wires)) i ⟨0, 0, 0⟩
    rw [List.map_map] at hvalues
    rw [hlen, getD_append_replicate hi, getD_map_map, rowValues, rowVariables, ← hvalues]
    rfl
  exact Wires.ext (hrows Wires.l) (hrows Wires.r) (hrows Wires.o)

/-! ### The gate equation by rows -/

/-- The selectors of a row, zero after the last gate. -/
def rowSelectors (c : Circuit) (i : Nat) : Selectors Scalar :=
  (c.rows.map (·.selectors)).getD i ⟨0, 0, 0, 0, 0⟩

theorem selectorColumns_length {c : Circuit} {n : Nat} (h : c.size ≤ n) :
    ∀ column ∈ (c.selectorColumns n).toList, column.length = n := by
  have hrows := c.rows_length
  intro column hcolumn
  simp only [selectorColumns, Selectors.columns, Selectors.map, Selectors.toList, List.mem_cons,
    List.not_mem_nil, or_false] at hcolumn
  rcases hcolumn with rfl | rfl | rfl | rfl | rfl <;>
    simp only [List.length_append, List.length_map, List.length_replicate, hrows] <;> omega

theorem atRow_selectorColumns {c : Circuit} {n i : Nat} (hi : i < n) :
    (c.selectorColumns n).atRow i = c.rowSelectors i := by
  have hrows : ∀ f : Selectors Scalar → Scalar, f ⟨0, 0, 0, 0, 0⟩ = 0 →
      ((c.rows.map Gate.selectors).map f ++ List.replicate (n - c.size) 0).getD i 0 =
        f (c.rowSelectors i) := by
    intro f hf
    have hlen : c.size = ((c.rows.map Gate.selectors).map f).length := by
      rw [List.length_map, List.length_map, rows_length]
    rw [hlen, getD_append_replicate hi, ← hf, getD_map_map, rowSelectors]
  exact Selectors.ext (hrows Selectors.ql rfl) (hrows Selectors.qr rfl) (hrows Selectors.qm rfl)
    (hrows Selectors.qo rfl) (hrows Selectors.qk rfl)

def rowGate (c : Circuit) (w : List Scalar) (i : Nat) : Scalar :=
  gateValue (c.rowSelectors i) (c.rowValues w i)

theorem rowGate_of_lt {c : Circuit} {w : List Scalar} {i : Nat} (h : i < c.rows.length) :
    c.rowGate w i = gateValue c.rows[i].selectors (c.rows[i].wires.map (valueOf w)) := by
  rw [rowGate, rowSelectors, rowValues, rowVariables,
    List.getD_eq_getElem _ _ (by rwa [List.length_map]),
    List.getD_eq_getElem _ _ (by rwa [List.length_map]), List.getElem_map, List.getElem_map]

/-- On rows after the last gate the equation holds for every assignment. -/
theorem rowGate_of_le {c : Circuit} {w : List Scalar} {i : Nat} (h : c.rows.length ≤ i) :
    c.rowGate w i = 0 := by
  rw [rowGate, rowSelectors, List.getD_eq_default _ _ (by rwa [List.length_map])]
  simp [gateValue]

/-- The gates are satisfied if the equation holds on all rows. -/
theorem rowGate_eq_zero_iff {c : Circuit} {w : List Scalar} (h : c.Assigned w) :
    (∀ i, c.rowGate w i = 0) ↔ ∀ g ∈ c.rows, g.eval w = .ok 0 := by
  constructor
  · intro hrow g hg
    obtain ⟨i, hi, rfl⟩ := List.mem_iff_getElem.1 hg
    exact eval_eq_ok_iff.2 ⟨h _ hg, (rowGate_of_lt hi ▸ hrow i).symm⟩
  · intro hgate i
    by_cases hi : i < c.rows.length
    · rw [rowGate_of_lt hi]
      exact (eval_eq_ok_iff.1 (hgate _ (List.getElem_mem hi))).2.symm
    · exact rowGate_of_le (Nat.not_lt.1 hi)

end Circuit

end PlonkKzg
