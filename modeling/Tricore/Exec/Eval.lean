import Tricore.Core
import Tricore.Exec.FloatStatus

/-!
# Evaluating expressions

An expression reads registers, flags and memory and changes nothing. Its value fits its width.
Accesses of two bytes and more must be at even addresses.
-/

namespace Tricore

namespace Machine

variable {β : Type} [Bus β]

/-- Is an access of this width at an address it may not be at? -/
def misaligned (addr : Address) (w : Width) : Bool := decide (2 ≤ w.bytes) && addr.getLsbD 0

def load (m : Machine β) (addr : Address) (w : Width) : Except Trap Value :=
  if misaligned addr w then .error (.unaligned addr)
  else (Bus.read m.bus addr w.bytes).mapError (.bus addr)

/-- Store the low bytes of a value. -/
def store (m : Machine β) (addr : Address) (w : Width) (v : Value) : Machine β × Option Trap :=
  if misaligned addr w then (m, some (.unaligned addr))
  else
    let (bus, fault?) := Bus.write m.bus addr w.bytes (w.cut v)
    ({ m with bus }, fault?.map (.bus addr))

end Machine

/-- A truth value as 0 or 1. -/
def truth (b : Bool) : Value := if b then 1 else 0

namespace Expr

variable {β : Type} [Bus β]

mutual

def eval (m : Machine β) : Expr → Except Trap Value
  | const w value => .ok (w.cut value)
  | reg r => .ok (m.core.read r)
  | flag f => .ok (truth (m.core.flag f))
  | load w addr => do
    let addr ← eval m addr
    m.load (addr.setWidth 32) w
  | unary op w arg => do
    let v ← eval m arg
    return w.cut (op.apply w v)
  | binary op w lhs rhs => do
    let a ← eval m lhs
    let b ← eval m rhs
    return w.cut (op.apply w a b)
  | extend s w arg => do
    let v ← eval m arg
    return w.cut (match s with | .signed => arg.width.spread v | .unsigned => v)
  | low w arg => do
    let v ← eval m arg
    return w.cut v
  | compare op w lhs rhs => do
    let a ← eval m lhs
    let b ← eval m rhs
    return truth (op.apply w (w.cut a) (w.cut b))
  | floatStatus f op args => do
    let args ← evalList m args
    return truth (op.raises f (args.map (·.setWidth 32)))

/-- Several expressions, from left to right. -/
def evalList (m : Machine β) : List Expr → Except Trap (List Value)
  | [] => .ok []
  | e :: es => do
    let v ← eval m e
    let vs ← evalList m es
    return v :: vs

end

end Expr

end Tricore
