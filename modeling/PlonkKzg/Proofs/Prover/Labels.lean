import PlonkKzg.Proofs.Prover.Preprocessing

/-!
# Labels of wire positions

The labels of the left column are the elements of the domain, and those of the other two columns are
the elements of two further cosets. Different positions have different labels.

* `Domain.coset_inj` — the cosets of the generator and of its square are disjoint from the domain
  and from each other;
* `Shifters.standard` — the generator and its square as factors of the columns;
* `Shifters.labelOf_generator`, `Shifters.labelOf_inj` — labels as powers, and that they differ;
* `Shifters.labels_isOk_iff` — the lists of positions that have labels;
* `Shifters.labels_injective` — which their labels determine.
-/

namespace PlonkKzg

/-- The powers of the generator below the third are in different cosets of the domain: the order of
the generator is above twice the size of the domain. -/
theorem Domain.coset_inj {d : Domain} {a b : Nat} (ha : a < 3) (hb : b < 3) {x y : Scalar}
    (hx : x ^ d.size = 1) (hy : y ^ d.size = 1)
    (h : Scalar.generator ^ a * x = Scalar.generator ^ b * y) : a = b ∧ x = y := by
  -- To the power of the size, nothing is left of the elements of the domain.
  have hpow : Scalar.generator ^ (a * d.size) = Scalar.generator ^ (b * d.size) := by
    have hsize := congrArg (· ^ d.size) h
    simpa only [mul_pow, hx, hy, mul_one, ← pow_mul] using hsize
  have hbound : ∀ c < 3, c * d.size < Scalar.order - 1 := by
    intro c hc
    have hlarge : 2 * 2 ^ maxLog < Scalar.order - 1 := by decide
    exact (Nat.mul_le_mul (Nat.le_of_lt_succ hc) d.size_le_two_pow).trans_lt hlarge
  have hexponent := PlonkKzg.generator_primitive.pow_inj (hbound a ha) (hbound b hb) hpow
  obtain rfl := Nat.eq_of_mul_eq_mul_right d.size_pos hexponent
  have hne : Scalar.generator ≠ 0 := PlonkKzg.generator_primitive.ne_zero (by decide)
  exact ⟨rfl, mul_left_cancel₀ (pow_ne_zero a hne) h⟩

namespace Shifters

variable {d : Domain}

/-- The shifters that every domain gets. -/
def standard : Shifters := ⟨Scalar.generator, Scalar.generator.square⟩

/-- With the standard shifters a label is a power of the two generators. -/
theorem labelOf_generator {p : Nat} (hp : p < 3 * d.size) :
    standard.labelOf d p = Scalar.generator ^ (p / d.size) * d.generator ^ (p % d.size) := by
  have hcolumn := column_lt hp
  rw [labelOf]
  refine congrArg (· * d.generator ^ (p % d.size)) ?_
  generalize p / d.size = column at hcolumn
  obtain rfl | rfl | rfl : column = 0 ∨ column = 1 ∨ column = 2 := by omega
  · exact (pow_zero _).symm
  · exact (pow_one _).symm
  · exact (pow_two _).symm

/-- The labels of different positions are different. -/
theorem labelOf_inj {p q : Nat} (hp : p < 3 * d.size) (hq : q < 3 * d.size)
    (h : standard.labelOf d p = standard.labelOf d q) : p = q := by
  have hrow : ∀ t, (d.generator ^ (t % d.size)) ^ d.size = 1 := by
    intro t
    rw [← pow_mul, Nat.mul_comm, pow_mul, d.generator_primitive.pow_eq_one, one_pow]
  rw [labelOf_generator hp, labelOf_generator hq] at h
  -- The coset gives the column, and the element of the domain gives the row.
  obtain ⟨hdiv, helement⟩ := Domain.coset_inj (column_lt hp) (column_lt hq) (hrow p) (hrow q) h
  have hmod := d.generator_primitive.pow_inj (Nat.mod_lt p d.size_pos) (Nat.mod_lt q d.size_pos)
    helement
  rw [← Nat.div_add_mod p d.size, hdiv, hmod, Nat.div_add_mod]

theorem lt_of_label_eq_ok {s : Shifters} {p : Nat} {x : Scalar} (h : s.label d p = .ok x) :
    p < 3 * d.size := by
  by_contra hle
  have hcolumn : 3 ≤ p / d.size := (Nat.le_div_iff_mul_le d.size_pos).2 (Nat.not_lt.1 hle)
  obtain ⟨column, hbeyond⟩ : ∃ column, p / d.size = column + 3 := ⟨p / d.size - 3, by omega⟩
  rw [label, hbeyond] at h
  cases h

/-- Labels exist for the positions of the table and no others. -/
theorem labels_isOk_iff {s : Shifters} {ps : List Nat} :
    (∃ ls, s.labels d ps = .ok ls) ↔ ∀ p ∈ ps, p < 3 * d.size := by
  constructor
  · rintro ⟨ls, h⟩ p hp
    obtain ⟨x, hx⟩ := exists_eq_ok_of_mapM_eq_ok h p hp
    exact lt_of_label_eq_ok hx
  · intro h
    exact ⟨_, (labels_eq_ok_iff h).2 rfl⟩

/-- A list of positions is determined by its labels. -/
theorem labels_inj {ps qs : List Nat} (hps : ∀ p ∈ ps, p < 3 * d.size)
    (hqs : ∀ q ∈ qs, q < 3 * d.size) (h : standard.labels d ps = standard.labels d qs) :
    ps = qs := by
  rw [(labels_eq_ok_iff hqs).2 rfl, labels_eq_ok_iff hps] at h
  have hlen : qs.length = ps.length := by simpa only [List.length_map] using congrArg List.length h
  refine List.ext_getElem hlen.symm fun i hi hj => ?_
  have hlabel := List.getElem_of_eq h (by rwa [List.length_map])
  rw [List.getElem_map, List.getElem_map] at hlabel
  exact labelOf_inj (hps _ (List.getElem_mem hi)) (hqs _ (List.getElem_mem hj)) hlabel.symm

/-- The labels of all positions are different. -/
theorem labels_range_nodup : ∃ ls, standard.labels d (List.range (3 * d.size)) = .ok ls ∧
    ls.Nodup := by
  refine ⟨_, (labels_eq_ok_iff fun p hp => List.mem_range.1 hp).2 rfl, ?_⟩
  refine List.Nodup.map_on (fun p hp q hq h => ?_) List.nodup_range
  exact labelOf_inj (List.mem_range.1 hp) (List.mem_range.1 hq) h

/-- The three columns of labels have no element in common. -/
theorem columns_disjoint {a b : Nat} (ha : a < 3) (hb : b < 3) (hab : a ≠ b) :
    List.Disjoint (d.elements.map (Scalar.generator ^ a * ·))
      (d.elements.map (Scalar.generator ^ b * ·)) := by
  intro z hza hzb
  obtain ⟨x, hx, rfl⟩ := List.mem_map.1 hza
  obtain ⟨y, hy, hyx⟩ := List.mem_map.1 hzb
  exact hab (Domain.coset_inj ha hb (d.pow_size_of_mem_elements hx) (d.pow_size_of_mem_elements hy)
    hyx.symm).1

/-- There are shifters for every domain, every position has the power of the generator of its column
times that of its row as label, and lists of positions are determined by their labels. -/
theorem labels_injective {n depth : Nat} (hd : Domain.ofSize n depth = .ok d) :
    ∃ s, ofSize n = .ok s ∧
      (∀ column < 3, ∀ row < n, s.label d (column * n + row) =
        .ok (Scalar.generator ^ column * d.generator ^ row)) ∧
      (∀ ps : List Nat, (∃ ls, s.labels d ps = .ok ls) ↔ ∀ p ∈ ps, p < 3 * n) ∧
      (∀ ps qs : List Nat, (∀ p ∈ ps, p < 3 * n) → (∀ q ∈ qs, q < 3 * n) →
        s.labels d ps = s.labels d qs → ps = qs) ∧
      (∃ ls, s.labels d (List.range (3 * n)) = .ok ls ∧ ls.Nodup) ∧
      ∀ a < 3, ∀ b < 3, a ≠ b → List.Disjoint (d.elements.map (Scalar.generator ^ a * ·))
        (d.elements.map (Scalar.generator ^ b * ·)) := by
  obtain ⟨rfl, -⟩ := Domain.ofSize_eq_ok hd
  refine ⟨standard, ofSize_isOk d, fun column hcolumn row hrow => ?_, fun ps => labels_isOk_iff,
    fun ps qs hps hqs => labels_inj hps hqs, labels_range_nodup,
    fun a ha b hb => columns_disjoint ha hb⟩
  have hlt : column * d.size + row < 3 * d.size := by
    have hle : column * d.size ≤ 2 * d.size := Nat.mul_le_mul_right _ (Nat.le_of_lt_succ hcolumn)
    omega
  rw [label_eq_ok _ hlt, labelOf_generator hlt, Nat.mul_comm, Nat.mul_add_div d.size_pos,
    Nat.div_eq_of_lt hrow, Nat.mul_add_mod, Nat.mod_eq_of_lt hrow, Nat.add_zero]

/-- The largest domain: a label of the last column, two lists in opposite order, and the two cosets
next to the domain. -/
theorem labels_injective_largest : ∃ (d : Domain) (s : Shifters),
    Domain.ofSize (2 ^ 28) 0 = .ok d ∧ ofSize (2 ^ 28) = .ok s ∧
    s.label d (2 * 2 ^ 28 + 7) = .ok (Scalar.generator ^ 2 * d.generator ^ 7) ∧
    (∃ ls, s.labels d [0, 2 ^ 28] = .ok ls) ∧ s.labels d [0, 2 ^ 28] ≠ s.labels d [2 ^ 28, 0] ∧
    (∃ ls, s.labels d (List.range (3 * 2 ^ 28)) = .ok ls ∧ ls.Nodup) ∧
    List.Disjoint (d.elements.map (Scalar.generator ^ 1 * ·))
      (d.elements.map (Scalar.generator ^ 2 * ·)) := by
  have hd : Domain.ofSize (2 ^ 28) 0 = .ok ⟨28, 0, by decide⟩ := rfl
  obtain ⟨s, hs, hlabel, hok, hinj, hall, hdisjoint⟩ := labels_injective hd
  have hleft : ∀ p ∈ [0, 2 ^ 28], p < 3 * 2 ^ 28 := by decide
  have hright : ∀ p ∈ [2 ^ 28, 0], p < 3 * 2 ^ 28 := by decide
  exact ⟨_, s, hd, hs, hlabel 2 (by decide) 7 (by decide), (hok _).2 hleft,
    fun h => absurd (hinj _ _ hleft hright h) (by decide), hall,
    hdisjoint 1 (by decide) 2 (by decide) (by decide)⟩

end Shifters

end PlonkKzg
