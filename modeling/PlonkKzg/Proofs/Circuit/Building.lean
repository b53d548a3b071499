import PlonkKzg.Proofs.Circuit.Rows

/-!
# Building circuits

A circuit that was built by calls, some of which were refused. Its gates name its variables only,
each variable was given out once, and an assignment passes the check exactly if it satisfies what
the accepted calls asked for.

* `Circuit.checkRows_eq_ok_iff`, `Circuit.check_eq_ok_iff`, `Circuit.check_eq_error` — what the
  check says of a circuit that has variable 0;
* `Circuit.Call` — the calls, `Call.names` the variables that they name, `Call.gate?` the gates that
  they put in, and `Call.Holds` what they ask of an assignment;
* `Circuit.perform_bind` — methods in sequence, with the circuit that each leaves behind;
* `Circuit.answer` — what a call gives and leaves behind; `Circuit.answer_eq_ok`,
  `Circuit.answer_eq_error`, `Circuit.answer_error_iff` — all that a call can do;
* `Circuit.History`, `Circuit.build` — the calls that were accepted and the circuit after all calls;
* `Circuit.History.Consistent` — what each call keeps, and so all of them;
* `Circuit.build_sound` — the circuits that calls build;
* `Circuit.allocate_exhausted` — the call after which there are no more variables.
-/

namespace PlonkKzg

namespace Circuit

/-! ### The check -/

section

variable {c : Circuit} {w : List Scalar}

/-- The only failure of evaluating a gate is an index past the end of the assignment. -/
theorem eval_eq_error {g : Gate} {e : Error} (h : g.eval w = .error e) : e = .invalidWitness := by
  rcases bind_eq_error_iff.1 h with hvalues | ⟨ws, -, hpure⟩
  · obtain ⟨v, -, hv⟩ := Wires.exists_eq_error_of_mapM_eq_error hvalues
    exact lookup_eq_error hv
  · cases hpure

/-- The rows pass exactly when every gate evaluates to zero. -/
theorem checkRows_eq_ok_iff {gs : List Gate} :
    checkRows w gs = .ok () ↔ ∀ g ∈ gs, g.eval w = .ok 0 := by
  induction gs with
  | nil => simp [checkRows]
  | cons g gs ih =>
      simp only [checkRows, bind_eq_ok_iff, require_eq_ok_iff, not_not, ih, List.forall_mem_cons]
      constructor
      · rintro ⟨_, hg, rfl, hgs⟩
        exact ⟨hg, hgs⟩
      · rintro ⟨hg, hgs⟩
        exact ⟨0, hg, rfl, hgs⟩

/-- A failing row is always reported as an invalid witness. -/
theorem checkRows_eq_error {gs : List Gate} {e : Error} (h : checkRows w gs = .error e) :
    e = .invalidWitness := by
  induction gs with
  | nil => cases h
  | cons g gs ih =>
      rw [checkRows] at h
      rcases bind_eq_error_iff.1 h with hg | ⟨value, -, h⟩
      · exact eval_eq_error hg
      · rcases require_eq_error_iff.1 h with ⟨-, he⟩ | ⟨-, hgs⟩
        · exact he.symm
        · exact ih hgs

/-- A short assignment is refused before any row is looked at. -/
theorem check_eq_badArguments (h : w.length < c.varCount.toNat) :
    c.check w = .error (.error .badArguments) := if_pos h

variable (hpos : 0 < c.varCount) (hlen : c.varCount.toNat ≤ w.length)
include hpos hlen

/-- With enough values, the check gets to the first value and to the gates. -/
theorem check_eq_checkRows : c.check w =
    if valueOf w 0 ≠ 0 then .error (.error .invalidWitness)
    else (checkRows w c.rows).mapError .error := by
  cases w with
  | nil =>
      have hcount : 0 < c.varCount.toNat := UInt64.lt_iff_toNat_lt.1 hpos
      exact absurd hlen (Nat.not_le.2 hcount)
  | cons a w =>
      rw [check, if_neg (Nat.not_lt.2 hlen)]
      rfl

/-- What the check asks of an assignment that is long enough. -/
theorem check_eq_ok_iff :
    c.check w = .ok () ↔ valueOf w 0 = 0 ∧ ∀ g ∈ c.rows, g.eval w = .ok 0 := by
  rw [check_eq_checkRows hpos hlen, ← checkRows_eq_ok_iff]
  by_cases hzero : valueOf w 0 = 0
  · rw [if_neg (not_not.2 hzero)]
    cases checkRows w c.rows <;> simp [Except.mapError, hzero]
  · simp [hzero]

theorem check_eq_error {e : Fault} (h : c.check w = .error e) : e = .error .invalidWitness := by
  rw [check_eq_checkRows hpos hlen] at h
  split at h
  · exact (Except.error.inj h).symm
  · cases hrows : checkRows w c.rows with
    | ok =>
        rw [hrows] at h
        cases h
    | error e' =>
        rw [hrows, checkRows_eq_error hrows] at h
        exact (Except.error.inj h).symm

end

/-! ### Calls -/

inductive Call where
  | allocate
  | constraint (g : Gate)
  | assertion (g : Gate)
  | mul (left right out : Variable)
  | add (left right out : Variable)
  | constant (v : Variable) (k : Scalar)
deriving DecidableEq

namespace Call

def names : Call → List Variable
  | allocate => []
  | constraint g => g.wires.toList
  | assertion g => g.wires.toList
  | mul left right out => [left, right, out]
  | add left right out => [left, right, out]
  | constant v _ => [v]

def gate? : Call → Option Gate
  | allocate => none
  | constraint g => some g
  | assertion g => some g
  | mul left right out => some (.mul left right out)
  | add left right out => some (.add left right out)
  | constant v k => some (.constant v k)

/-- What a call asks of an assignment. -/
def Holds (w : List Scalar) : Call → Prop
  | allocate => True
  | constraint g => gateValue g.selectors (g.wires.map (valueOf w)) = 0
  | assertion g => gateValue g.selectors (g.wires.map (valueOf w)) = 0
  | mul left right out => valueOf w left * valueOf w right = valueOf w out
  | add left right out => valueOf w left + valueOf w right = valueOf w out
  | constant v k => valueOf w v = k

/-- The gate of a call says what the call asks. -/
theorem holds_iff {call : Call} {g : Gate} (h : call.gate? = some g) (w : List Scalar) :
    call.Holds w ↔ gateValue g.selectors (g.wires.map (valueOf w)) = 0 := by
  cases call with
  | allocate => cases h
  | constraint g' => cases h; rfl
  | assertion g' => cases h; rfl
  | mul left right out =>
      cases h
      simp only [Holds, Gate.mul, gateValue, Wires.map]
      grind
  | add left right out =>
      cases h
      simp only [Holds, Gate.add, gateValue, Wires.map]
      grind
  | constant v k =>
      cases h
      simp only [Holds, Gate.constant, gateValue, Wires.map]
      grind

end Call

/-- A method whose value is not passed on. -/
def Call.quiet (m : Method Error Unit) : Method Fault (Option Variable) := do
  m.adapt Fault.error
  pure none

/-- The method that a call is for. -/
def Call.method : Call → Method Fault (Option Variable)
  | .allocate => do
      let v ← Circuit.allocate
      pure (some v)
  | .constraint g => quiet (addConstraint g)
  | .assertion g => quiet (addAssertion g)
  | .mul left right out => quiet (addMul left right out)
  | .add left right out => quiet (addAdd left right out)
  | .constant v k => quiet (addConstant v k)

/-- What a call gives, and the circuit that it leaves behind. -/
def answer (c : Circuit) (call : Call) : Except Fault (Option Variable) × Circuit :=
  c.perform call.method

section

variable {ε α β : Type} (c : Circuit)

theorem perform_pure (a : α) : c.perform (pure a : Method ε α) = (.ok a, c) := rfl

/-- Throwing leaves the circuit as it stands at that point. -/
theorem perform_throw (e : ε) : c.perform (throw e : Method ε α) = (.error e, c) := rfl

theorem perform_get : c.perform (get : Method ε Circuit) = (.ok c, c) := rfl

/-- A modification always succeeds. -/
theorem perform_modify (f : Circuit → Circuit) :
    c.perform (modify f : Method ε PUnit) = (.ok ⟨⟩, f c) := rfl

theorem perform_lift (x : Except ε α) : c.perform (liftM x : Method ε α) = (x, c) := rfl

/-- Renaming the error of a method keeps the state it leaves. -/
theorem perform_adapt (f : ε → β) (m : Method ε α) :
    c.perform (m.adapt f : Method β α) = ((c.perform m).1.mapError f, (c.perform m).2) := rfl

/-- The second method works on the circuit that the first one leaves behind, and after an error that
circuit stays as it is. -/
theorem perform_bind (m : Method ε α) (f : α → Method ε β) : c.perform (m >>= f) =
    match c.perform m with
    | (.ok a, c') => c'.perform (f a)
    | (.error e, c') => (.error e, c') := by
  have hrun : c.perform (m >>= f) =
      (fun r : Except ε α × Circuit => (ExceptT.bindCont f r.1).run r.2) (c.perform m) := rfl
  rw [hrun]
  rcases c.perform m with ⟨a | e, c'⟩ <;> rfl

/-- What an allocation does: the next index, or a refusal at the end of the machine word. -/
theorem perform_allocate : c.perform allocate =
    if c.varCount.toNat + 1 < 2 ^ 64 then
      (.ok c.varCount, { c with varCount := c.varCount + 1 })
    else (.error (.misuse .wordOverflow), c) := by
  have hback : c.varCount + 1 - 1 = c.varCount := by grind
  rw [allocate, perform_bind, perform_get]
  by_cases hroom : c.varCount.toNat + 1 < 2 ^ 64
  · have hword : requireWord (c.varCount.toNat + 1) = .ok () := if_pos hroom
    simp only [perform_bind, perform_lift, hword, perform_modify, perform_get, perform_pure, hback,
      hroom, if_true]
  · have hword : requireWord (c.varCount.toNat + 1) = .error (.misuse .wordOverflow) :=
      if_neg hroom
    simp only [perform_bind, perform_lift, hword, hroom, if_false]

/-- The wire check leaves the circuit alone in both outcomes. -/
theorem perform_requireWires (g : Gate) : c.perform (requireWires g) =
    if c.Admits g then (.ok (), c) else (.error .badArguments, c) := by
  rw [requireWires, perform_bind, perform_get]
  by_cases hadmits : c.Admits g
  · simp only [hadmits, not_true_eq_false, if_false, if_true, perform_pure]
  · simp only [hadmits, not_false_eq_true, if_false, if_true, perform_throw]

/-- A change that is made after the wires were looked at is made, or nothing changes. -/
theorem perform_requireWires_modify (g : Gate) (f : Circuit → Circuit) :
    c.perform (requireWires g >>= fun _ => modify f) =
      if c.Admits g then (.ok (), f c) else (.error .badArguments, c) := by
  rw [perform_bind, perform_requireWires]
  by_cases hadmits : c.Admits g
  · simp only [hadmits, if_true, perform_modify]
  · simp only [hadmits, if_false]

theorem perform_addConstraint (g : Gate) : c.perform (addConstraint g) =
    if c.Admits g then (.ok (), { c with constraints := c.constraints ++ [g] })
    else (.error .badArguments, c) :=
  c.perform_requireWires_modify g _

theorem perform_addAssertion (g : Gate) : c.perform (addAssertion g) =
    if c.Admits g then (.ok (), { c with assertions := c.assertions ++ [g] })
    else (.error .badArguments, c) :=
  c.perform_requireWires_modify g _

/-- A method that makes its change under a condition does so too if its value is not passed on. -/
theorem perform_quiet {m : Method Error Unit} {p : Prop} [Decidable p] {c' : Circuit} {e : Error}
    (hm : c.perform m = if p then (.ok (), c') else (.error e, c)) :
    c.perform (Call.quiet m) = if p then (.ok none, c') else (.error (.error e), c) := by
  rw [Call.quiet, perform_bind, perform_adapt, hm]
  by_cases hp : p
  · simp only [hp, if_true, Except.mapError, perform_pure]
  · simp only [hp, if_false, Except.mapError]

theorem answer_allocate : c.answer .allocate =
    if c.varCount.toNat + 1 < 2 ^ 64 then
      (.ok (some c.varCount), { c with varCount := c.varCount + 1 })
    else (.error (.misuse .wordOverflow), c) := by
  rw [answer, Call.method, perform_bind, perform_allocate]
  by_cases hroom : c.varCount.toNat + 1 < 2 ^ 64
  · simp only [hroom, if_true, perform_pure]
  · simp only [hroom, if_false]

theorem answer_constraint (g : Gate) : c.answer (.constraint g) =
    if c.Admits g then (.ok none, { c with constraints := c.constraints ++ [g] })
    else (.error (.error .badArguments), c) :=
  c.perform_quiet (c.perform_addConstraint g)

theorem answer_assertion (g : Gate) : c.answer (.assertion g) =
    if c.Admits g then (.ok none, { c with assertions := c.assertions ++ [g] })
    else (.error (.error .badArguments), c) :=
  c.perform_quiet (c.perform_addAssertion g)

theorem mem_rows_constraint (g g' : Gate) :
    g' ∈ rows { c with constraints := c.constraints ++ [g] } ↔ g' ∈ c.rows ∨ g' = g := by
  simp only [rows, List.mem_append, List.mem_singleton]
  tauto

theorem mem_rows_assertion (g g' : Gate) :
    g' ∈ rows { c with assertions := c.assertions ++ [g] } ↔ g' ∈ c.rows ∨ g' = g := by
  simp only [rows, List.mem_append, List.mem_singleton, or_assoc]

/-- A call for a gate puts it among the rows, or names a variable that is not there and leaves the
circuit as it is. -/
theorem answer_gate {call : Call} {g : Gate} (hg : call.gate? = some g) :
    ∃ c' : Circuit,
      (c.answer call = if c.Admits g then (.ok none, c') else (.error (.error .badArguments), c)) ∧
        c'.varCount = c.varCount ∧ ∀ g', g' ∈ c'.rows ↔ g' ∈ c.rows ∨ g' = g := by
  have hconstraint := c.mem_rows_constraint g
  have hassertion := c.mem_rows_assertion g
  cases call with
  | allocate => cases hg
  | constraint _ => cases hg; exact ⟨_, c.answer_constraint g, rfl, hconstraint⟩
  | assertion _ => cases hg; exact ⟨_, c.answer_assertion g, rfl, hassertion⟩
  -- The other gates are constraints and assertions too.
  | mul _ _ _ => cases hg; exact ⟨_, c.answer_constraint _, rfl, hconstraint⟩
  | add _ _ _ => cases hg; exact ⟨_, c.answer_constraint _, rfl, hconstraint⟩
  | constant _ _ => cases hg; exact ⟨_, c.answer_assertion _, rfl, hassertion⟩

end

section

variable {c c' : Circuit} {call : Call} {reply : Option Variable} {e : Fault}

/-- A call that puts in no gate is for a variable. -/
theorem Call.eq_allocate (hg : call.gate? = none) : call = .allocate := by
  cases call <;> simp_all [Call.gate?]

/-- What an accepted call does: it gives out the next variable, or it puts in its gate. -/
theorem answer_eq_ok (h : c.answer call = (.ok reply, c')) :
    (call = .allocate ∧ reply = some c.varCount ∧ c'.rows = c.rows ∧
      c'.varCount.toNat = c.varCount.toNat + 1) ∨
    ∃ g, call.gate? = some g ∧ c.Admits g ∧ reply = none ∧ c'.varCount = c.varCount ∧
      ∀ g', g' ∈ c'.rows ↔ g' ∈ c.rows ∨ g' = g := by
  cases hg : call.gate? with
  | none =>
      obtain rfl := Call.eq_allocate hg
      rw [answer_allocate] at h
      split at h
      · rename_i hroom
        cases h
        refine .inl ⟨rfl, rfl, rfl, ?_⟩
        rw [UInt64.toNat_add]
        exact Nat.mod_eq_of_lt hroom
      · cases h
  | some g =>
      obtain ⟨c₁, hanswer, hcount, hrows⟩ := c.answer_gate hg
      rw [hanswer] at h
      split at h
      · rename_i hadmits
        cases h
        exact .inr ⟨g, rfl, hadmits, rfl, hcount, hrows⟩
      · cases h

/-- A call that is refused leaves the circuit as it was. -/
theorem answer_eq_error (h : c.answer call = (.error e, c')) : c' = c := by
  cases hg : call.gate? with
  | none =>
      obtain rfl := Call.eq_allocate hg
      rw [answer_allocate] at h
      split at h <;> cases h
      rfl
  | some g =>
      obtain ⟨c₁, hanswer, -⟩ := c.answer_gate hg
      rw [hanswer] at h
      split at h <;> cases h
      rfl

/-- The wires of the gate of a call are those that the call names, and variable 0 perhaps. -/
theorem admits_iff_names {g : Gate} (hpos : 0 < c.varCount) (hg : call.gate? = some g) :
    c.Admits g ↔ ∀ v ∈ call.names, v < c.varCount := by
  cases call with
  | allocate => cases hg
  | constraint _ => cases hg; rfl
  | assertion _ => cases hg; rfl
  | mul _ _ _ => cases hg; rfl
  | add _ _ _ => cases hg; rfl
  | constant v _ =>
      cases hg
      simp [Admits, Call.names, Gate.constant, Wires.toList, hpos]

/-- A call is refused if it names a variable that is not there, and there is an end to new ones. -/
theorem answer_error_iff (hpos : 0 < c.varCount) : (c.answer call).1 = .error e ↔
    (e = .error .badArguments ∧ ∃ v ∈ call.names, ¬v < c.varCount) ∨
      (e = .misuse .wordOverflow ∧ call = .allocate ∧ c.varCount.toNat + 1 = 2 ^ 64) := by
  cases hg : call.gate? with
  | none =>
      obtain rfl := Call.eq_allocate hg
      have hbound := c.varCount.toNat_lt
      rw [answer_allocate]
      split
      · rename_i hroom
        have hend : ¬c.varCount.toNat + 1 = 2 ^ 64 := Nat.ne_of_lt hroom
        simp only [Call.names, hend, List.not_mem_nil, false_and, exists_false, and_false, or_false,
          reduceCtorEq]
      · rename_i hroom
        have hend : c.varCount.toNat + 1 = 2 ^ 64 := Nat.le_antisymm hbound (Nat.not_lt.1 hroom)
        simp [Call.names, hend, eq_comm]
  | some g =>
      obtain ⟨c₁, hanswer, -⟩ := c.answer_gate hg
      have hallocate : call ≠ .allocate := by
        rintro rfl
        cases hg
      have hnames : (∃ v ∈ call.names, ¬v < c.varCount) ↔ ¬c.Admits g := by
        rw [admits_iff_names hpos hg]
        push Not
        rfl
      rw [hanswer, hnames]
      by_cases hadmits : c.Admits g <;> simp [hadmits, hallocate, eq_comm]

end

/-! ### Sequences of calls -/

/-- The calls that were accepted with what they gave, in their order, and the circuit after all
calls. -/
structure History where
  circuit : Circuit
  accepted : List (Call × Option Variable)

namespace History

def issued (h : History) : List Variable := h.accepted.filterMap (·.2)

theorem issued_concat (h : History) (c : Circuit) (call : Call) (reply : Option Variable) :
    issued ⟨c, h.accepted ++ [(call, reply)]⟩ = h.issued ++ reply.toList := by
  cases reply <;> simp [issued]

/-- One call more. Whatever circuit the call leaves behind is the one that the next call is for. -/
def step (h : History) (call : Call) : History :=
  match h.circuit.answer call with
  | (.ok reply, c) => ⟨c, h.accepted ++ [(call, reply)]⟩
  | (.error _, c) => ⟨c, h.accepted⟩

/-- A successful call is recorded together with its reply. -/
theorem step_of_ok {h : History} {call : Call} {reply : Option Variable} {c : Circuit}
    (hanswer : h.circuit.answer call = (.ok reply, c)) :
    h.step call = ⟨c, h.accepted ++ [(call, reply)]⟩ := by
  rw [step, hanswer]

/-- A call that is refused leaves everything. -/
theorem step_of_error {h : History} {call : Call} {e : Fault} {c : Circuit}
    (hanswer : h.circuit.answer call = (.error e, c)) : h.step call = h := by
  rw [step, hanswer, answer_eq_error hanswer]

/-- The gates name variables that were given out, or variable 0, and they are the gates of the
accepted calls. The variables were given out in the order of their numbers. -/
structure Consistent (h : History) : Prop where
  admits : ∀ g ∈ h.circuit.rows, h.circuit.Admits g
  mem_rows : ∀ g, g ∈ h.circuit.rows ↔ ∃ entry ∈ h.accepted, entry.1.gate? = some g
  issued : h.issued.map UInt64.toNat = List.range' 1 h.issued.length
  count : h.circuit.varCount.toNat = h.issued.length + 1

namespace Consistent

variable {h : History} (hh : h.Consistent)
include hh

/-- Variable 0 is there from the start, so the count is never zero. -/
theorem pos : 0 < h.circuit.varCount := by
  have hcount := hh.count
  rw [UInt64.lt_iff_toNat_lt, UInt64.toNat_zero]
  omega

/-- The next variable is none of those that are there. -/
theorem not_mem_issued : h.circuit.varCount ∉ h.issued := by
  intro hmem
  have hnat := List.mem_map_of_mem (f := UInt64.toNat) hmem
  rw [hh.issued, List.mem_range'_1] at hnat
  have hcount := hh.count
  omega

/-- An allocation keeps the history consistent. -/
theorem issue {c : Circuit} (hrows : c.rows = h.circuit.rows)
    (hcount : c.varCount.toNat = h.circuit.varCount.toNat + 1) :
    Consistent ⟨c, h.accepted ++ [(.allocate, some h.circuit.varCount)]⟩ where
  admits := by
    intro g hg v hv
    have hlt := hh.admits g (hrows ▸ hg) v hv
    show v < c.varCount
    rw [UInt64.lt_iff_toNat_lt] at hlt ⊢
    omega
  mem_rows := by
    intro g
    simp [hrows, hh.mem_rows, Call.gate?]
  issued := by
    simp [issued_concat, hh.issued, hh.count, List.range'_concat, Nat.add_comm 1]
  count := by simp [issued_concat, hcount, hh.count]

/-- An accepted gate keeps the history consistent, whichever list it goes to. -/
theorem insert {c : Circuit} {call : Call} {g : Gate} (hg : call.gate? = some g)
    (hadmits : h.circuit.Admits g) (hcount : c.varCount = h.circuit.varCount)
    (hrows : ∀ g', g' ∈ c.rows ↔ g' ∈ h.circuit.rows ∨ g' = g) :
    Consistent ⟨c, h.accepted ++ [(call, none)]⟩ where
  admits := by
    intro g' hg' v hv
    show v < c.varCount
    rw [hcount]
    rcases (hrows g').1 hg' with hmem | rfl
    · exact hh.admits g' hmem v hv
    · exact hadmits v hv
  mem_rows := by
    intro g'
    simp only [hrows, hh.mem_rows, List.mem_append, List.mem_singleton, or_and_right, exists_or,
      exists_eq_left, hg, Option.some.injEq]
    rw [eq_comm]
  issued := by simp [issued_concat, hh.issued]
  count := by simp [issued_concat, hcount, hh.count]

/-- One call keeps all of this, whether it is accepted or not. -/
theorem step (call : Call) : (h.step call).Consistent := by
  cases hanswer : h.circuit.answer call with
  | mk outcome c =>
      cases outcome with
      | error e => rwa [step_of_error hanswer]
      | ok reply =>
          rw [step_of_ok hanswer]
          rcases answer_eq_ok hanswer with ⟨rfl, rfl, hrows, hcount⟩ |
            ⟨g, hg, hadmits, rfl, hcount, hrows⟩
          · exact hh.issue hrows hcount
          · exact hh.insert hg hadmits hcount hrows

/-- And so do any number of them. -/
theorem run (calls : List Call) : (calls.foldl History.step h).Consistent := by
  induction calls generalizing h with
  | nil => exact hh
  | cons call calls ih => exact ih (hh.step call)

/-- The gates are satisfied if what the accepted calls ask for holds. -/
theorem rows_hold_iff {w : List Scalar} (hlen : h.circuit.varCount.toNat ≤ w.length) :
    (∀ g ∈ h.circuit.rows, g.eval w = .ok 0) ↔ ∀ entry ∈ h.accepted, entry.1.Holds w := by
  -- The wires carry variables of the circuit, so every gate finds its values.
  have heval : ∀ g ∈ h.circuit.rows, (g.eval w = .ok 0 ↔
      gateValue g.selectors (g.wires.map (valueOf w)) = 0) := by
    intro g hg
    rw [eval_eq_ok_iff, eq_comm (a := (0 : Scalar)), and_iff_right]
    intro v hv
    have hlt := hh.admits g hg v hv
    rw [UInt64.lt_iff_toNat_lt] at hlt
    omega
  constructor
  · intro hrows entry hentry
    cases hg : entry.1.gate? with
    | none =>
        have hcall : entry.1 = .allocate := by cases hcall : entry.1 <;> simp_all [Call.gate?]
        rw [hcall]
        trivial
    | some g =>
        have hmem := (hh.mem_rows g).2 ⟨entry, hentry, hg⟩
        exact (Call.holds_iff hg w).2 ((heval g hmem).1 (hrows g hmem))
  · intro hcalls g hmem
    obtain ⟨entry, hentry, hg⟩ := (hh.mem_rows g).1 hmem
    exact (heval g hmem).2 ((Call.holds_iff hg w).1 (hcalls entry hentry))

/-- The next variable is neither variable 0 nor one that was given out, and no gate names it. -/
theorem allocate_fresh {reply : Option Variable} {c : Circuit}
    (hanswer : h.circuit.answer .allocate = (.ok reply, c)) : ∃ v, reply = some v ∧
      v ≠ 0 ∧ v ∉ h.issued ∧ ∀ g ∈ h.circuit.rows, v ∉ g.wires.toList := by
  rcases answer_eq_ok hanswer with ⟨-, rfl, -, -⟩ | ⟨g, hg, -⟩
  · refine ⟨_, rfl, (UInt64.ne_of_lt hh.pos).symm, hh.not_mem_issued, ?_⟩
    intro g hg hv
    exact UInt64.lt_irrefl _ (hh.admits g hg _ hv)
  · cases hg

/-- The check refuses the arguments exactly when the assignment is shorter than the count. -/
theorem check_eq_badArguments_iff {w : List Scalar} :
    h.circuit.check w = .error (.error .badArguments) ↔ w.length < h.circuit.varCount.toNat := by
  refine ⟨fun hbad => ?_, check_eq_badArguments⟩
  by_contra hlen
  cases check_eq_error hh.pos (Nat.not_lt.1 hlen) hbad

theorem check_eq_ok_iff {w : List Scalar} : h.circuit.check w = .ok () ↔
    h.circuit.varCount.toNat ≤ w.length ∧ valueOf w 0 = 0 ∧
      ∀ entry ∈ h.accepted, entry.1.Holds w := by
  rcases Nat.lt_or_ge w.length h.circuit.varCount.toNat with hlen | hlen
  · simp [check_eq_badArguments hlen, hlen]
  · rw [Circuit.check_eq_ok_iff hh.pos hlen, hh.rows_hold_iff hlen, and_iff_right hlen]

/-- The check has two errors and no others. -/
theorem check_eq_error {w : List Scalar} {e : Fault} (he : h.circuit.check w = .error e) :
    e = .error .badArguments ∨ e = .error .invalidWitness := by
  rcases Nat.lt_or_ge w.length h.circuit.varCount.toNat with hlen | hlen
  · rw [check_eq_badArguments hlen] at he
    exact .inl (Except.error.inj he).symm
  · exact .inr (Circuit.check_eq_error hh.pos hlen he)

end Consistent

end History

/-- The calls one after another, on a circuit without gates. -/
def build (calls : List Call) : History := calls.foldl History.step ⟨empty, []⟩

theorem build_append (calls : List Call) (call : Call) :
    build (calls ++ [call]) = (build calls).step call := by
  rw [build, List.foldl_append]
  rfl

/-- Every sequence of calls leaves a consistent history: the step lemmas, by induction. -/
theorem build_consistent (calls : List Call) : (build calls).Consistent := by
  have hempty : History.Consistent ⟨empty, []⟩ := {
    admits := by simp [empty, rows]
    mem_rows := by simp [empty, rows]
    issued := rfl
    count := rfl }
  exact hempty.run calls

/-- After any calls: the gates name variables of the circuit, which has variable 0; the calls that
name another variable are refused, and no others, as long as there are numbers for new variables; a
refused call leaves the circuit as it was, and with it everything; the variables were given out one
by one; and an assignment with enough values passes the check exactly if it is zero for variable 0
and satisfies what the accepted calls asked for. -/
theorem build_sound (calls : List Call) :
    let h := build calls
    let c := h.circuit
    (0 < c.varCount ∧ ∀ g ∈ c.rows, ∀ v ∈ g.wires.toList, v < c.varCount) ∧
    (∀ call,
      ((c.answer call).1 = .error (.error .badArguments) ↔ ∃ v ∈ call.names, ¬v < c.varCount) ∧
      ((c.answer call).1 = .error (.misuse .wordOverflow) ↔
        call = .allocate ∧ h.issued.length + 2 = 2 ^ 64) ∧
      ∀ e, (c.answer call).1 = .error e →
        (e = .error .badArguments ∨ e = .misuse .wordOverflow) ∧ (c.answer call).2 = c ∧
          build (calls ++ [call]) = h) ∧
    (h.issued.map UInt64.toNat = List.range' 1 h.issued.length ∧
      ∀ reply c', c.answer .allocate = (.ok reply, c') → ∃ v, reply = some v ∧
        v ≠ 0 ∧ v ∉ h.issued ∧ ∀ g ∈ c.rows, v ∉ g.wires.toList) ∧
    ∀ w,
      (c.check w = .error (.error .badArguments) ↔ w.length < c.varCount.toNat) ∧
      (c.check w = .ok () ↔ c.varCount.toNat ≤ w.length ∧ valueOf w 0 = 0 ∧
        ∀ entry ∈ h.accepted, entry.1.Holds w) ∧
      ∀ e, c.check w = .error e → e = .error .badArguments ∨ e = .error .invalidWitness := by
  intro h c
  have hh : h.Consistent := build_consistent calls
  refine ⟨⟨hh.pos, hh.admits⟩, ?_, ⟨hh.issued, fun _ _ => hh.allocate_fresh⟩, ?_⟩
  · intro call
    have hcount : h.circuit.varCount.toNat + 1 = h.issued.length + 2 := congrArg (· + 1) hh.count
    have herror := fun e => @answer_error_iff c call e hh.pos
    refine ⟨?_, ?_, ?_⟩
    · simp [herror]
    · simp [herror, c, hcount]
    · intro e he
      have hanswer : c.answer call = (.error e, (c.answer call).2) := Prod.ext he rfl
      rw [build_append, History.step_of_error hanswer]
      exact ⟨((herror e).1 he).imp And.left And.left, answer_eq_error hanswer, rfl⟩
  · intro w
    exact ⟨hh.check_eq_badArguments_iff, hh.check_eq_ok_iff, fun _ => hh.check_eq_error⟩

/-! ### The last variable -/

/-- Calls for nothing but variables give them out in order. -/
theorem build_replicate_allocate {n : Nat} (hn : n + 1 < 2 ^ 64) :
    (build (List.replicate n .allocate)).circuit = { empty with varCount := .ofNat (n + 1) } := by
  induction n with
  | zero => rfl
  | succ n ih =>
      have hcircuit := ih (by omega)
      have hcount : (UInt64.ofNat (n + 1)).toNat = n + 1 := UInt64.toNat_ofNat_of_lt' (Nat.lt_of_succ_lt hn)
      have hroom : (UInt64.ofNat (n + 1)).toNat + 1 < 2 ^ 64 := by rwa [hcount]
      have hanswer := answer_allocate { empty with varCount := .ofNat (n + 1) }
      rw [if_pos hroom, ← hcircuit] at hanswer
      rw [List.replicate_succ', build_append, History.step_of_ok hanswer, hcircuit,
        UInt64.ofNat_add (n + 1) 1]
      rfl

/-- When all numbers of a machine word but the last are given out, the next call for a variable fails,
although it names none. -/
theorem allocate_exhausted :
    let c := (build (List.replicate 18446744073709551614 .allocate)).circuit
    c = ⟨[], [], 18446744073709551615⟩ ∧ Call.allocate.names = [] ∧
      c.answer .allocate = (.error (.misuse .wordOverflow), c) := by
  intro c
  have hc : c = ⟨[], [], 18446744073709551615⟩ :=
    build_replicate_allocate (n := 18446744073709551614) (by norm_num)
  refine ⟨hc, rfl, ?_⟩
  rw [hc]
  decide

example : (build [.allocate, .mul 1 1 2, .allocate, .mul 1 1 2, .constant 2 4]).circuit =
    ⟨[.mul 1 1 2], [.constant 2 4], 3⟩ := by decide

end Circuit

end PlonkKzg
