import Tricore.Effect.Idiom
import Tricore.Effect.Trace

/-!
# Emitting statements

`Emit` is the effect of writing statements down: each action may append statements, take unused
temporaries and labels from a `Supply`, and ask for the label of an address. It never fails;
operands are read before anything is emitted.
-/

namespace Tricore.Lift

/-- What is still unused, and the addresses the host knows. -/
structure Supply where
  temps : Nat
  labels : Nat
  labelAt? : Address → Option Label

/-- What a trace has for a new instruction. -/
def Supply.of (t : Trace) : Supply where
  temps := 0
  labels := t.nextLabel
  labelAt? := t.labelAt?

/-- An action that appends statements. -/
def Emit (α : Type) : Type := Supply → α × List Stmt × Supply

namespace Emit

instance : Monad Emit where
  pure a := fun supply => (a, [], supply)
  bind x f := fun supply =>
    let (a, first, supply) := x supply
    let (b, rest, supply) := f a supply
    (b, first ++ rest, supply)

end Emit

def emit (stmt : Stmt) : Emit Unit := fun supply => ((), [stmt], supply)

def emitAll (stmts : List Stmt) : Emit Unit := fun supply => ((), stmts, supply)

def set (r : Register) (value : Expr) : Emit Unit := emit (.setReg r value)

def setFlag (f : Flag) (value : Expr) : Emit Unit := emit (.setFlag f value)

def store (w : Width) (addr value : Expr) : Emit Unit := emit (.store w addr value)

def mark (l : Label) : Emit Unit := emit (.mark l)

def intrinsic (i : Intrinsic) (outputs : List Register) (inputs : List Expr) : Emit Unit :=
  emit (.intrinsic i outputs inputs)

/-- The temporary with number `n` for a value, and the value at the temporary's width. -/
def tempFor (n : Nat) (value : Expr) : Register × Expr :=
  match value.width with
  | .double => (.tempWide n, value)
  | .word => (.temp n, value)
  | _ => (.temp n, .zext .word value)

/-- Keep a value in an unused temporary. -/
def temp (value : Expr) : Emit Expr := fun supply =>
  let (r, value) := tempFor supply.temps value
  (.reg r, [.setReg r value], { supply with temps := supply.temps + 1 })

def newLabel : Emit Label := fun supply =>
  (⟨supply.labels⟩, [], { supply with labels := supply.labels + 1 })

def labelAt? (addr : Address) : Emit (Option Label) := fun supply =>
  (supply.labelAt? addr, [], supply)

/-- Set a sticky flag where its source is set. -/
def sticky (f source : Flag) : Emit Unit := setFlag f (.or .byte (.flag f) (.flag source))

/-- Overflow, sticky overflow and advanced overflow. -/
def overflowStatus (v av : Expr) : Emit Unit := do
  setFlag .v v
  sticky .sv .v
  setFlag .av av

/-- Overflow and advanced overflow, with both sticky flags. -/
def status (v av : Expr) : Emit Unit := do
  overflowStatus v av
  sticky .sav .av

end Tricore.Lift
