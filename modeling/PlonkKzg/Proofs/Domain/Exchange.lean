/-!
# Exchange of places in pairs

When the places of a list come in pairs, the two items of each pair can change places in the list
itself. All places are visited in order, and the item at a place is exchanged with that of its
partner if the partner is ahead. So a pair is exchanged once, at the first of its places, and a place
that is its own partner keeps its item.

* `exchange?` — the items at two places, exchanged;
* `exchangeAhead?`, `exchangeFirst?` — one visit, and the visits of the first places;
* `PairsPlaces` — every place has a partner, whose partner it is;
* `sourceBelow`, `ExchangedBelow` — where the items come from after the visits of the first places;
* `ExchangedBelow.visit`, `exchangeFirst?_run` — one more visit, and all of them;
* `exchangeFirst?_length` — in the end each item is at the partner of its place.
-/

namespace PlonkKzg

variable {α : Type}

/-- The items at two places, exchanged, if the list has both places. -/
def exchange? (i j : Nat) (as : List α) : Option (List α) := do
  let a ← as[i]?
  let b ← as[j]?
  pure ((as.set i b).set j a)

/-- The visit of a place: an exchange if its partner is ahead. -/
def exchangeAhead? (partner : Nat → Nat) (as : List α) (i : Nat) : Option (List α) :=
  if i < partner i then exchange? i (partner i) as else some as

/-- The visits of the first `n` places, in order. -/
def exchangeFirst? (partner : Nat → Nat) (n : Nat) (as : List α) : Option (List α) :=
  (List.range n).foldlM (exchangeAhead? partner) as

/-- Exchanging two places that exist swaps their entries and moves nothing else. -/
theorem exchange?_eq_some {as : List α} {i j : Nat} (hi : i < as.length) (hj : j < as.length) :
    ∃ bs, exchange? i j as = some bs ∧ bs.length = as.length ∧
      ∀ p, bs[p]? = if p = j then as[i]? else if p = i then as[j]? else as[p]? := by
  refine ⟨(as.set i as[j]).set j as[i], ?_, ?_, fun p => ?_⟩
  · rw [exchange?, List.getElem?_eq_getElem hi, List.getElem?_eq_getElem hj]
    rfl
  · rw [List.length_set, List.length_set]
  · rw [List.getElem?_set, List.getElem?_set, List.length_set, if_pos hi, if_pos hj,
      List.getElem?_eq_getElem hi, List.getElem?_eq_getElem hj]
    simp only [eq_comm (b := p)]

/-! ### Sources -/

/-- Each of the first `m` places has a partner among them, whose partner it is. -/
structure PairsPlaces (partner : Nat → Nat) (m : Nat) : Prop where
  lt : ∀ p < m, partner p < m
  involutive : ∀ p < m, partner (partner p) = p

/-- The place from which the item at place `p` came, after the visits of the first `n` places: the
partner, once either place of the pair is visited. -/
def sourceBelow (partner : Nat → Nat) (n p : Nat) : Nat :=
  if p < n ∨ partner p < n then partner p else p

variable {partner : Nat → Nat} {m n p : Nat}

theorem sourceBelow_zero (p : Nat) : sourceBelow partner 0 p = p :=
  if_neg (not_or.2 ⟨Nat.not_lt_zero _, Nat.not_lt_zero _⟩)

theorem sourceBelow_of_lt (h : p < n) : sourceBelow partner n p = partner p := if_pos (.inl h)

theorem sourceBelow_of_le (h : n ≤ p) (hp : n ≤ partner p) : sourceBelow partner n p = p :=
  if_neg (not_or.2 ⟨Nat.not_lt.2 h, Nat.not_lt.2 hp⟩)

/-- When place `n` is exchanged with a later one, these two change and no others. -/
theorem sourceBelow_succ_of_ahead (hf : PairsPlaces partner m) (hn : n < m) (hp : p < m)
    (h : n < partner n) :
    sourceBelow partner (n + 1) p =
      if p = partner n then sourceBelow partner n n
      else if p = n then sourceBelow partner n (partner n) else sourceBelow partner n p := by
  have hle : n ≤ partner n := Nat.le_of_lt h
  have hback : partner (partner n) = n := hf.involutive n hn
  by_cases hsecond : p = partner n
  · have hvisited : p < n + 1 ∨ partner p < n + 1 := by rw [hsecond, hback]; omega
    rw [if_pos hsecond, sourceBelow, if_pos hvisited, sourceBelow_of_le (Nat.le_refl n) hle,
      hsecond, hback]
  · rw [if_neg hsecond]
    by_cases hfirst : p = n
    · rw [if_pos hfirst, hfirst, sourceBelow_of_lt (Nat.lt_succ_self n),
        sourceBelow_of_le hle (Nat.le_of_eq hback.symm)]
    · -- The visit is one of another pair.
      have hother : partner p ≠ n := fun heq => hsecond (by rw [← heq, hf.involutive p hp])
      have hvisited : (p < n + 1 ∨ partner p < n + 1) ↔ (p < n ∨ partner p < n) := by omega
      rw [if_neg hfirst]
      simp only [sourceBelow, hvisited]

/-- Where the partner is not ahead, the pair is exchanged already, or the place is its own partner. -/
theorem sourceBelow_succ_of_behind (hf : PairsPlaces partner m) (hp : p < m)
    (h : partner n ≤ n) : sourceBelow partner (n + 1) p = sourceBelow partner n p := by
  by_cases hfix : partner p = p
  · rw [sourceBelow, sourceBelow, hfix, ite_self, ite_self]
  · have hfirst : p = n → partner p < n := by
      rintro rfl
      exact Nat.lt_of_le_of_ne h hfix
    have hsecond : partner p = n → p < n := by
      rintro rfl
      rw [hf.involutive p hp] at h
      exact Nat.lt_of_le_of_ne h (Ne.symm hfix)
    have hvisited : (p < n + 1 ∨ partner p < n + 1) ↔ (p < n ∨ partner p < n) := by omega
    simp only [sourceBelow, hvisited]

/-! ### Visits -/

/-- What has become of a list after the visits of its first `n` places. -/
structure ExchangedBelow (partner : Nat → Nat) (n : Nat) (as bs : List α) : Prop where
  length_eq : bs.length = as.length
  getElem?_eq : ∀ p < as.length, bs[p]? = as[sourceBelow partner n p]?

variable {as bs : List α}

/-- Before the loop every entry stands where it came from. -/
theorem ExchangedBelow.refl (partner : Nat → Nat) (as : List α) :
    ExchangedBelow partner 0 as as :=
  ⟨rfl, fun p _ => by rw [sourceBelow_zero]⟩

/-- One turn of the loop extends the invariant by one place. -/
theorem ExchangedBelow.visit (hf : PairsPlaces partner as.length) (hn : n < as.length)
    (h : ExchangedBelow partner n as bs) :
    ∃ cs, exchangeAhead? partner bs n = some cs ∧ ExchangedBelow partner (n + 1) as cs := by
  by_cases hahead : n < partner n
  · have hpartner : partner n < as.length := hf.lt n hn
    obtain ⟨cs, hcs, hlen, hget⟩ :=
      exchange?_eq_some (h.length_eq.symm ▸ hn) (h.length_eq.symm ▸ hpartner)
    refine ⟨cs, (if_pos hahead).trans hcs, hlen.trans h.length_eq, fun p hp => ?_⟩
    rw [hget, h.getElem?_eq n hn, h.getElem?_eq _ hpartner, h.getElem?_eq p hp,
      sourceBelow_succ_of_ahead hf hn hp hahead]
    simp only [apply_ite (as[·]?)]
  · refine ⟨bs, if_neg hahead, h.length_eq, fun p hp => ?_⟩
    rw [h.getElem?_eq p hp, sourceBelow_succ_of_behind hf hp (Nat.not_lt.1 hahead)]

theorem exchangeFirst?_succ (partner : Nat → Nat) (n : Nat) (as : List α) :
    exchangeFirst? partner (n + 1) as =
      exchangeFirst? partner n as >>= fun bs => exchangeAhead? partner bs n := by
  rw [exchangeFirst?, List.range_succ, List.foldlM_append]
  simp only [List.foldlM_cons, List.foldlM_nil, bind_pure]
  rfl

/-- The loop over the first `n` places keeps the invariant, by induction on `n`. -/
theorem exchangeFirst?_run (hf : PairsPlaces partner as.length) (hn : n ≤ as.length) :
    ∃ bs, exchangeFirst? partner n as = some bs ∧ ExchangedBelow partner n as bs := by
  induction n with
  | zero => exact ⟨as, rfl, .refl partner as⟩
  | succ n ih =>
      obtain ⟨bs, hbs, hbelow⟩ := ih (Nat.le_of_succ_le hn)
      obtain ⟨cs, hcs, hnext⟩ := hbelow.visit hf hn
      refine ⟨cs, ?_, hnext⟩
      rw [exchangeFirst?_succ, hbs]
      exact hcs

/-- The visits of all places bring each item to the partner of its place. -/
theorem exchangeFirst?_length (hf : PairsPlaces partner as.length) :
    ∃ bs, exchangeFirst? partner as.length as = some bs ∧ bs.length = as.length ∧
      ∀ p < as.length, bs[p]? = as[partner p]? := by
  obtain ⟨bs, hbs, hall⟩ := exchangeFirst?_run hf (Nat.le_refl _)
  refine ⟨bs, hbs, hall.length_eq, fun p hp => ?_⟩
  rw [hall.getElem?_eq p hp, sourceBelow_of_lt hp]

end PlonkKzg
