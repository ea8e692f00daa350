import Tricore.Effect.Stmt

/-!
# Traces

A `Trace` collects the statements of instructions. It hands out labels that never repeat, and knows
the addresses a label has been bound to, so that branches to them can become gotos.
-/

namespace Tricore

structure Trace where
  stmts : List Stmt := []
  /-- The next label is `⟨nextLabel⟩`. -/
  nextLabel : Nat := 0
  /-- Addresses with a label of their own. -/
  bound : List (Address × Label) := []
  deriving Repr, Inhabited

namespace Trace

def empty : Trace := {}

def labelAt? (t : Trace) (addr : Address) : Option Label := t.bound.lookup addr

def newLabel (t : Trace) : Label × Trace :=
  (⟨t.nextLabel⟩, { t with nextLabel := t.nextLabel + 1 })

/-- The label of an address, a new one if it has none. -/
def bind (t : Trace) (addr : Address) : Label × Trace :=
  match t.labelAt? addr with
  | some label => (label, t)
  | none =>
    let (label, t) := t.newLabel
    (label, { t with bound := (addr, label) :: t.bound })

/-- Mark the label of an address here. -/
def mark (t : Trace) (addr : Address) : Trace :=
  let (label, t) := t.bind addr
  { t with stmts := t.stmts ++ [.mark label] }

/-- Drop the statements; labels and bound addresses stay. -/
def clear (t : Trace) : Trace := { t with stmts := [] }

end Trace

end Tricore
