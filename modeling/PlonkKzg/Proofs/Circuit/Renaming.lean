import PlonkKzg.Proofs.Circuit.Cycles

/-!
# Renaming variables

A circuit with other names for its variables has the same rows, the same copy constraints and the
same values on its wires. Only the number of the variables may be another one.

* `Circuit.rename` — a circuit with other names, and another number of them;
* `Circuit.Renaming` — different names for different variables, and variable 0 remains;
* `IsNext.map`, `nextPositions_map` — next positions depend on which entries are equal only;
* `Circuit.rename_wiring`, `Circuit.rename_permutation` — the variables of the positions get their
  new names, and the permutation stays;
* `Circuit.SameValues`, `Circuit.rename_wireColumns` — an assignment that gives the same values to
  the new names has the same columns.
-/

namespace PlonkKzg

/-! ### Positions -/

/-- A renaming that is injective on the occurring variables keeps where each one stands. -/
theorem getElem?_map_eq_some_iff {all : List Variable} {m : Variable → Variable} {v : Variable}
    (hm : ∀ u ∈ all, m u = m v → u = v) (s : Nat) :
    (all.map m)[s]? = some (m v) ↔ all[s]? = some v := by
  rw [List.getElem?_map, Option.map_eq_some_iff]
  constructor
  · rintro ⟨u, hu, heq⟩
    rwa [← hm u (List.mem_of_getElem? hu) heq]
  · intro hv
    exact ⟨v, hv, rfl⟩

/-- Such a renaming keeps the next occurrences. -/
theorem IsNext.map {all : List Variable} {m : Variable → Variable} {p t : Nat} {v : Variable}
    (h : IsNext all p t v) (hm : ∀ u ∈ all, m u = m v → u = v) : IsNext (all.map m) p t (m v) := by
  have hentry := getElem?_map_eq_some_iff hm
  cases h with
  | next here there after between =>
      exact .next ((hentry p).2 here) ((hentry t).2 there) after
        fun s hps hst hs => between s hps hst ((hentry s).1 hs)
  | first here there last least =>
      exact .first ((hentry p).2 here) ((hentry t).2 there)
        (fun s hps hs => last s hps ((hentry s).1 hs)) fun s hst hs => least s hst ((hentry s).1 hs)

/-- If different entries stay different, the next positions stay. -/
theorem nextPositions_map {all : List Variable} {m : Variable → Variable}
    (hm : ∀ u ∈ all, ∀ v ∈ all, m u = m v → u = v) :
    nextPositions (all.map m) = nextPositions all := by
  have hlen : (nextPositions (all.map m)).length = all.length := by
    rw [nextPositions_length, List.length_map]
  refine List.ext_getElem (hlen.trans (nextPositions_length all).symm) ?_
  intro p hp' hp
  have hlt : p < all.length := hlen ▸ hp'
  have hnext := (nextPositions_isNext hlt).map fun u hu => hm u hu _ (List.getElem_mem hlt)
  have hnext' := @nextPositions_isNext (all.map m) p (by rwa [List.length_map])
  rw [List.getElem_map] at hnext'
  rw [List.getD_eq_getElem _ _ hp] at hnext
  rw [List.getD_eq_getElem _ _ hp'] at hnext'
  exact hnext'.unique hnext

/-! ### Circuits -/

/-- A gate with other names for its variables. -/
def Gate.rename (m : Variable → Variable) (g : Gate) : Gate := ⟨g.wires.map m, g.selectors⟩

namespace Circuit

/-- A circuit with other names for its variables, of which there are `k`. -/
def rename (c : Circuit) (m : Variable → Variable) (k : UInt64) : Circuit :=
  ⟨c.constraints.map (·.rename m), c.assertions.map (·.rename m), k⟩

/-- Names among `k` for the variables of a circuit, different ones for different variables, and
variable 0 for itself. -/
structure Renaming (c : Circuit) (m : Variable → Variable) (k : UInt64) : Prop where
  zero : m 0 = 0
  lt : ∀ v < c.varCount, m v < k
  injective : ∀ u < c.varCount, ∀ v < c.varCount, m u = m v → u = v

section

variable (c : Circuit) (m : Variable → Variable) (k : UInt64)

theorem rename_rows : (c.rename m k).rows = c.rows.map (·.rename m) := by
  simp only [rows, rename, List.map_append]

theorem rename_size : (c.rename m k).size = c.size := by
  simp only [size, rename, List.length_map]

theorem rename_domainSize : (c.rename m k).domainSize = c.domainSize := by
  simp only [domainSize, domainLog, rename_size]

theorem rename_selectorColumns (n : Nat) :
    (c.rename m k).selectorColumns n = c.selectorColumns n := by
  simp only [selectorColumns, rename_rows, rename_size, List.map_map, Function.comp_def, Gate.rename]

end

variable {c : Circuit} {m : Variable → Variable} {k : UInt64}

/-- A renaming that fixes variable 0 renames the wiring, padding rows included. -/
theorem rename_wiring (hzero : m 0 = 0) (n : Nat) :
    (c.rename m k).wiring n = (c.wiring n).map m := by
  simp only [wiring, rename_rows, rename_size, Wires.columns, Wires.map, List.map_append,
    List.map_map, List.map_replicate, Function.comp_def, Gate.rename, hzero]

/-- If the gates name variables of the circuit, all positions carry such. -/
theorem wired_of_admits (hpos : 0 < c.varCount) (hadmits : ∀ g ∈ c.rows, c.Admits g) (n : Nat) :
    c.Wired n := by
  intro v hv
  rcases eq_zero_of_mem_wiring hv with rfl | ⟨g, hg, hmem⟩
  · exact hpos
  · exact hadmits g hg v hmem

theorem Renaming.wired (hm : c.Renaming m k) {n : Nat} (hwired : c.Wired n) :
    (c.rename m k).Wired n := by
  intro v hv
  rw [rename_wiring hm.zero] at hv
  obtain ⟨u, hu, rfl⟩ := List.mem_map.1 hv
  exact hm.lt u (hwired u hu)

/-- The permutation stays, if memory has room for both numbers of variables or for none. -/
theorem rename_permutation (hm : c.Renaming m k) (hpos : 0 < c.varCount)
    (hadmits : ∀ g ∈ c.rows, c.Admits g)
    (hroom : c.varCount.toNat < 2 ^ 59 ↔ k.toNat < 2 ^ 59) (n : Nat) :
    (c.rename m k).permutation n = c.permutation n := by
  have hwired := wired_of_admits hpos hadmits n
  have htable : (c.rename m k).Tabulable n ↔ c.Tabulable n := by
    rw [tabulable_iff_lt, tabulable_iff_lt, hroom]
    rfl
  have hnext : nextPositions ((c.wiring n).map m) = nextPositions (c.wiring n) :=
    nextPositions_map fun u hu v hv => hm.injective u (hwired u hu) v (hwired v hv)
  simp only [permutation, rename_size, htable, hwired, hm.wired hwired, rename_wiring hm.zero, hnext,
    if_true]

/-! ### Assignments -/

/-- An assignment gives variable 0 and the variables on the gates the values that another one gives
to their new names. -/
def SameValues (c : Circuit) (m : Variable → Variable) (w w' : List Scalar) : Prop :=
  ∀ v, (v = 0 ∨ ∃ g ∈ c.rows, v ∈ g.wires.toList) → w'[(m v).toNat]? = w[v.toNat]?

/-- Looking a variable up depends only on the entry its index points at. -/
theorem lookup_eq_of_getElem? {w w' : List Scalar} {u v : Variable}
    (h : w'[u.toNat]? = w[v.toNat]?) : Gate.lookup w' u = Gate.lookup w v := by
  rw [Gate.lookup, Gate.lookup, h]

/-- A gate reads the same values under a renaming and the assignment carried along it. -/
theorem rename_wireValues {g : Gate} {w w' : List Scalar}
    (h : ∀ v ∈ g.wires.toList, w'[(m v).toNat]? = w[v.toNat]?) :
    (g.rename m).wireValues w' = g.wireValues w := by
  obtain ⟨hl, hr, ho⟩ := Wires.forall_mem_toList.1 h
  show (g.wires.map m).mapM (Gate.lookup w') = g.wires.mapM (Gate.lookup w)
  simp only [Wires.mapM, Wires.map, lookup_eq_of_getElem? hl, lookup_eq_of_getElem? hr,
    lookup_eq_of_getElem? ho]

/-- The columns stay, or the error. -/
theorem rename_wireColumns (hzero : m 0 = 0) {w w' : List Scalar}
    (hlen : c.varCount.toNat ≤ w.length) (hlen' : k.toNat ≤ w'.length) (hw : c.SameValues m w w')
    (n : Nat) : (c.rename m k).wireColumns w' n = c.wireColumns w n := by
  have hhead : w'.head? = w.head? := by
    have h0 := hw 0 (.inl rfl)
    rw [hzero] at h0
    rw [List.head?_eq_getElem?, List.head?_eq_getElem?]
    exact h0
  have hvalues : (c.rename m k).rows.mapM (·.wireValues w') = c.rows.mapM (·.wireValues w) := by
    rw [rename_rows, List.mapM_map]
    exact mapM_congr fun g hg => rename_wireValues fun v hv => hw v (.inr ⟨g, hg, hv⟩)
  have hshort : w'.length < (c.rename m k).varCount.toNat ∨ n < c.size ↔
      w.length < c.varCount.toNat ∨ n < c.size := by
    have hk : (c.rename m k).varCount = k := rfl
    rw [hk]
    omega
  simp only [wireColumns, hhead, rename_size, hshort, hvalues]

end Circuit

end PlonkKzg
