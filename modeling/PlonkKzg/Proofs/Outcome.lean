import PlonkKzg.Circuit.Wires
import PlonkKzg.Error

/-!
# Outcomes of steps in sequence

When a sequence of steps that can fail gives a value, and when an error.

* `bind_eq_ok_iff`, `require_eq_ok_iff`, `lift_eq_ok_iff` — a step, a guard, a step with another
  kind of error;
* `run_bind_eq_ok_iff`, `run_lift_eq_ok_iff` — a step with a state, and one without among such;
* `mapM_eq_ok_map`, `Wires.mapM_eq_ok_iff`, `Selectors.mapM_eq_ok_iff` — the same step on many
  items;
* `bind_eq_error_iff`, `require_eq_error_iff`, `lift_eq_error_iff`, `run_bind_eq_error_iff`,
  `run_lift_eq_error_iff` — the first step that fails decides on the error.
-/

namespace PlonkKzg

variable {ε α β : Type}

/-- A sequence succeeds when its parts do. -/
theorem bind_eq_ok_iff {x : Except ε α} {f : α → Except ε β} {b : β} :
    (x >>= f) = .ok b ↔ ∃ a, x = .ok a ∧ f a = .ok b := by
  cases x with
  | error e => simp [bind, Except.bind]
  | ok a => simp [bind, Except.bind]

theorem pure_eq_ok_iff {a b : α} : (pure a : Except ε α) = .ok b ↔ a = b := by
  simp [pure, Except.pure]

/-- A guard that throws lets a value through only where it does not hold. -/
theorem require_eq_ok_iff {p : Prop} [Decidable p] {e : ε} {f : α → Except ε β} {y : Except ε β}
    {b : β} : (if p then (throw e : Except ε α) >>= f else y) = .ok b ↔ ¬p ∧ y = .ok b := by
  by_cases hp : p
  · simp [hp, bind, Except.bind, throw, throwThe, MonadExceptOf.throw]
  · simp [hp]

theorem lift_eq_ok_iff {x : Except Error α} {a : α} :
    (liftM x : Except Fault α) = .ok a ↔ x = .ok a := by
  cases x with
  | error e =>
      constructor <;> intro h <;> cases h
  | ok b =>
      constructor <;> intro h
      · exact congrArg Except.ok (Except.ok.inj h)
      · rw [Except.ok.inj h]
        rfl

/-- A sequence fails in its first part or, that having succeeded, in the second. -/
theorem bind_eq_error_iff {x : Except ε α} {f : α → Except ε β} {e : ε} :
    (x >>= f) = .error e ↔ x = .error e ∨ ∃ a, x = .ok a ∧ f a = .error e := by
  cases x with
  | error e' => simp [bind, Except.bind]
  | ok a => simp [bind, Except.bind]

/-- A guard that throws gives its error where it holds. -/
theorem require_eq_error_iff {p : Prop} [Decidable p] {e e' : ε} {f : α → Except ε β}
    {y : Except ε β} : (if p then (throw e : Except ε α) >>= f else y) = .error e' ↔
      (p ∧ e = e') ∨ (¬p ∧ y = .error e') := by
  by_cases hp : p
  · simp [hp, bind, Except.bind, throw, throwThe, MonadExceptOf.throw]
  · simp [hp]

theorem lift_eq_error_iff {x : Except Error α} {e : Error} :
    (liftM x : Except Fault α) = .error (.error e) ↔ x = .error e := by
  cases x with
  | error e' =>
      constructor <;> intro h <;> cases h <;> rfl
  | ok a =>
      constructor <;> intro h <;> cases h

section

variable {σ : Type} {s s' : σ} {a : α} {b : β}

/-- With a state, the second part starts where the first ended. -/
theorem run_bind_eq_ok_iff {x : StateT σ (Except ε) α} {f : α → StateT σ (Except ε) β} :
    (x >>= f).run s = .ok (b, s') ↔ ∃ a t, x.run s = .ok (a, t) ∧ (f a).run t = .ok (b, s') := by
  rw [StateT.run_bind, bind_eq_ok_iff, Prod.exists]

theorem run_pure_eq_ok_iff {a' : α} :
    (pure a' : StateT σ (Except ε) α).run s = .ok (a, s') ↔ a' = a ∧ s = s' := by
  rw [StateT.run_pure, pure_eq_ok_iff, Prod.mk.injEq]

/-- A step without a state leaves the state as it is. -/
theorem run_lift_eq_ok_iff {x : Except ε α} :
    (liftM x : StateT σ (Except ε) α).run s = .ok (a, s') ↔ x = .ok a ∧ s = s' := by
  simp only [liftM, StateT.run_monadLift, monadLift_self, bind_eq_ok_iff, pure_eq_ok_iff,
    Prod.mk.injEq]
  constructor
  · rintro ⟨_, hx, rfl, rfl⟩
    exact ⟨hx, rfl⟩
  · rintro ⟨hx, rfl⟩
    exact ⟨a, hx, rfl, rfl⟩

theorem run'_eq_ok_iff {x : StateT σ (Except ε) α} :
    x.run' s = .ok a ↔ ∃ t, x.run s = .ok (a, t) := by
  rw [StateT.run'_eq]
  cases x.run s with
  | error e => simp [Functor.map, Except.map]
  | ok r => cases r; simp [Functor.map, Except.map, eq_comm]

theorem run_bind_eq_error_iff {x : StateT σ (Except ε) α} {f : α → StateT σ (Except ε) β} {e : ε} :
    (x >>= f).run s = .error e ↔
      x.run s = .error e ∨ ∃ a t, x.run s = .ok (a, t) ∧ (f a).run t = .error e := by
  rw [StateT.run_bind, bind_eq_error_iff, Prod.exists]

theorem run_lift_eq_error_iff {x : Except ε α} {e : ε} :
    (liftM x : StateT σ (Except ε) α).run s = .error e ↔ x = .error e := by
  cases x with
  | error e' =>
      constructor <;> intro h <;> cases h <;> rfl
  | ok a =>
      constructor <;> intro h <;> cases h

theorem run'_eq_error_iff {x : StateT σ (Except ε) α} {e : ε} :
    x.run' s = .error e ↔ x.run s = .error e := by
  rw [StateT.run'_eq]
  cases x.run s with
  | error e' => simp [Functor.map, Except.map]
  | ok r => simp [Functor.map, Except.map]

end

theorem mapM_congr {f g : α → Except ε β} {xs : List α} (h : ∀ x ∈ xs, f x = g x) :
    xs.mapM f = xs.mapM g := by
  induction xs with
  | nil => rfl
  | cons x xs ih =>
      rw [List.mapM_cons, List.mapM_cons, h x List.mem_cons_self,
        ih fun y hy => h y (List.mem_cons_of_mem x hy)]

theorem mapM_eq_ok_map {f : α → Except ε β} {g : α → β} {xs : List α}
    (h : ∀ x ∈ xs, f x = .ok (g x)) : xs.mapM f = .ok (xs.map g) := by
  induction xs with
  | nil => rfl
  | cons x xs ih =>
      rw [List.mapM_cons, h x List.mem_cons_self, ih fun y hy => h y (List.mem_cons_of_mem x hy)]
      rfl

/-- If a step succeeds on all items, then on each of them. -/
theorem exists_eq_ok_of_mapM_eq_ok {f : α → Except ε β} {xs : List α} {ys : List β}
    (h : xs.mapM f = .ok ys) : ∀ x ∈ xs, ∃ y, f x = .ok y := by
  induction xs generalizing ys with
  | nil => simp
  | cons x xs ih =>
      rw [List.mapM_cons, bind_eq_ok_iff] at h
      obtain ⟨y, hy, h⟩ := h
      obtain ⟨zs, hzs, -⟩ := bind_eq_ok_iff.1 h
      intro x' hx'
      rcases List.mem_cons.1 hx' with rfl | hx'
      · exact ⟨y, hy⟩
      · exact ih hzs x' hx'

/-- An error on many items is one on some of them. -/
theorem exists_eq_error_of_mapM_eq_error {f : α → Except ε β} {xs : List α} {e : ε}
    (h : xs.mapM f = .error e) : ∃ x ∈ xs, f x = .error e := by
  induction xs with
  | nil => cases h
  | cons x xs ih =>
      rw [List.mapM_cons] at h
      rcases bind_eq_error_iff.1 h with hx | ⟨y, -, h⟩
      · exact ⟨x, List.mem_cons_self, hx⟩
      · rcases bind_eq_error_iff.1 h with hxs | ⟨ys, -, h⟩
        · obtain ⟨x', hx', he⟩ := ih hxs
          exact ⟨x', List.mem_cons_of_mem x hx', he⟩
        · cases h

/-- A computation over the three wires succeeds when it does on each. -/
theorem Wires.mapM_eq_ok_iff {f : α → Except ε β} {w : Wires α} {v : Wires β} :
    w.mapM f = .ok v ↔ f w.l = .ok v.l ∧ f w.r = .ok v.r ∧ f w.o = .ok v.o := by
  obtain ⟨l, r, o⟩ := v
  simp only [Wires.mapM, bind_eq_ok_iff, pure_eq_ok_iff, Wires.mk.injEq]
  constructor
  · rintro ⟨l', hl, r', hr, o', ho, rfl, rfl, rfl⟩
    exact ⟨hl, hr, ho⟩
  · rintro ⟨hl, hr, ho⟩
    exact ⟨l, hl, r, hr, o, ho, rfl, rfl, rfl⟩

/-- A failure over the wires is the failure of one of them. -/
theorem Wires.exists_eq_error_of_mapM_eq_error {f : α → Except ε β} {w : Wires α} {e : ε}
    (h : w.mapM f = .error e) : ∃ a ∈ w.toList, f a = .error e := by
  rcases bind_eq_error_iff.1 h with hl | ⟨l, -, h⟩
  · exact ⟨w.l, by simp [toList], hl⟩
  · rcases bind_eq_error_iff.1 h with hr | ⟨r, -, h⟩
    · exact ⟨w.r, by simp [toList], hr⟩
    · rcases bind_eq_error_iff.1 h with ho | ⟨o, -, h⟩
      · exact ⟨w.o, by simp [toList], ho⟩
      · cases h

theorem Selectors.mapM_eq_ok_iff {f : α → Except ε β} {q : Selectors α} {v : Selectors β} :
    q.mapM f = .ok v ↔ f q.ql = .ok v.ql ∧ f q.qr = .ok v.qr ∧ f q.qm = .ok v.qm ∧
      f q.qo = .ok v.qo ∧ f q.qk = .ok v.qk := by
  obtain ⟨ql, qr, qm, qo, qk⟩ := v
  simp only [Selectors.mapM, bind_eq_ok_iff, pure_eq_ok_iff, Selectors.mk.injEq]
  constructor
  · rintro ⟨ql', hl, qr', hr, qm', hm, qo', ho, qk', hk, rfl, rfl, rfl, rfl, rfl⟩
    exact ⟨hl, hr, hm, ho, hk⟩
  · rintro ⟨hl, hr, hm, ho, hk⟩
    exact ⟨ql, hl, qr, hr, qm, hm, qo, ho, qk, hk, rfl, rfl, rfl, rfl, rfl⟩

end PlonkKzg
