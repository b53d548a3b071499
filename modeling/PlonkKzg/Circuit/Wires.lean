import PlonkKzg.Field.Scalar

/-!
# Wires and selectors

The three wires and five selectors of a gate, and what is kept once per wire or per selector: a
value, a column of values, a polynomial, a commitment.

* `Wires α` — left, right and output;
* `Selectors α` — left, right, product, output and constant;
* `Wires.rows`, `Wires.columns` — columns of values as a list of rows, and back;
* `gateValue` — the value of the gate equation.
-/

namespace PlonkKzg

/-- One item for each of the three wires. -/
@[ext] structure Wires (α : Type) where
  l : α
  r : α
  o : α
deriving DecidableEq

/-- One item for each of the five selectors. -/
@[ext] structure Selectors (α : Type) where
  ql : α
  qr : α
  qm : α
  qo : α
  qk : α
deriving DecidableEq

namespace Wires

variable {α β : Type}

/-- Left, right, output. -/
def toList (w : Wires α) : List α := [w.l, w.r, w.o]

def map (f : α → β) (w : Wires α) : Wires β := ⟨f w.l, f w.r, f w.o⟩

def mapM {m : Type → Type} [Monad m] (f : α → m β) (w : Wires α) : m (Wires β) := do
  let l ← f w.l
  let r ← f w.r
  let o ← f w.o
  pure ⟨l, r, o⟩

/-- The rows of three columns, up to the end of the shortest. -/
def rows (w : Wires (List α)) : List (Wires α) :=
  List.zipWith (fun l p => ⟨l, p.1, p.2⟩) w.l (w.r.zip w.o)

def columns (ws : List (Wires α)) : Wires (List α) := ⟨ws.map l, ws.map r, ws.map o⟩

end Wires

namespace Selectors

variable {α β : Type}

/-- Left, right, product, output, constant. -/
def toList (q : Selectors α) : List α := [q.ql, q.qr, q.qm, q.qo, q.qk]

def map (f : α → β) (q : Selectors α) : Selectors β := ⟨f q.ql, f q.qr, f q.qm, f q.qo, f q.qk⟩

def mapM {m : Type → Type} [Monad m] (f : α → m β) (q : Selectors α) : m (Selectors β) := do
  let ql ← f q.ql
  let qr ← f q.qr
  let qm ← f q.qm
  let qo ← f q.qo
  let qk ← f q.qk
  pure ⟨ql, qr, qm, qo, qk⟩

/-- The rows of five columns, up to the end of the shortest. -/
def rows (q : Selectors (List α)) : List (Selectors α) :=
  List.zipWith (fun ql p => ⟨ql, p.1, p.2.1, p.2.2.1, p.2.2.2⟩) q.ql
    (q.qr.zip (q.qm.zip (q.qo.zip q.qk)))

def columns (qs : List (Selectors α)) : Selectors (List α) :=
  ⟨qs.map ql, qs.map qr, qs.map qm, qs.map qo, qs.map qk⟩

end Selectors

/-- The value of the gate equation `ql · l + qr · r + qm · l · r + qo · o + qk`. -/
def gateValue (q : Selectors Scalar) (w : Wires Scalar) : Scalar :=
  q.ql * w.l + q.qr * w.r + q.qm * w.l * w.r + q.qo * w.o + q.qk

end PlonkKzg
