import Tricore.Effect.Stmt
import Tricore.Exec.Platform

/-!
# Executing statements

`Stmt.exec` executes one statement and says how to go on; `Machine.run` follows a list of them. A
jump sets the program counter and does not end the list: what is left of it still runs.
-/

namespace Tricore

/-- How to go on after a statement. -/
inductive Next where
  | next
  | goto (l : Label)
  | trap (t : Trap)
  deriving DecidableEq, Repr

/-- How a list of statements ended. -/
inductive Outcome where
  | done
  | trapped (t : Trap)
  /-- Steps ran out before the end. -/
  | unfinished
  deriving DecidableEq, Repr

namespace Next

def ofTrap? : Option Trap → Next
  | none => .next
  | some t => .trap t

end Next

variable {β : Type} [Bus β]

/-- Execute a statement of the instruction at `pc`. -/
def Stmt.exec (pc : Address) (m : Machine β) : Stmt → Machine β × Next
  | setReg r value =>
    match value.eval m with
    | .ok v => (m.withCore (·.write r v), .next)
    | .error t => (m, .trap t)
  | setFlag f value =>
    match value.eval m with
    | .ok v => (m.withCore (·.setFlag f (v.getLsbD 0)), .next)
    | .error t => (m, .trap t)
  | store w addr value =>
    match addr.eval m with
    | .error t => (m, .trap t)
    | .ok addr =>
      match value.eval m with
      | .error t => (m, .trap t)
      | .ok v =>
        let (m, trap?) := m.store (addr.setWidth 32) w v
        (m, .ofTrap? trap?)
  | jump target | call target | ret target =>
    match target.eval m with
    | .ok v => (m.withCore (·.write .pc v), .next)
    | .error t => (m, .trap t)
  | branch cond yes no =>
    match cond.eval m with
    | .ok v => (m, .goto (if v ≠ 0 then yes else no))
    | .error t => (m, .trap t)
  | goto l => (m, .goto l)
  | mark _ | nop => (m, .next)
  | intrinsic i outputs inputs =>
    match Expr.evalList m inputs with
    | .ok args =>
      let (m, trap?) := m.intrinsic pc i outputs args
      (m, .ofTrap? trap?)
    | .error t => (m, .trap t)
  | undefined => (m, .trap (.unsupported pc "undefined behaviour"))

/-- The statements from the last mark of a label on. -/
def fromMark? (l : Label) : List Stmt → Option (List Stmt)
  | [] => none
  | stmt :: rest =>
    match fromMark? l rest, stmt with
    | some found, _ => some found
    | none, .mark l' => if l' = l then some (stmt :: rest) else none
    | none, _ => none

namespace Machine

/-- Execute `rest`, a tail of `code`, in at most the given number of steps. -/
def run (pc : Address) (code : List Stmt) :
    Nat → List Stmt → Machine β → Machine β × Outcome
  | _, [], m => (m, .done)
  | 0, _ :: _, m => (m, .unfinished)
  | fuel + 1, stmt :: rest, m =>
    match stmt.exec pc m with
    | (m, .next) => run pc code fuel rest m
    | (m, .trap t) => (m, .trapped t)
    | (m, .goto l) =>
      match fromMark? l code with
      | some rest => run pc code fuel rest m
      | none => (m, .trapped (.unsupported pc "branch to a label outside the instruction"))

/-- Execute the statements of the instruction at `pc` in at most `steps` steps, from fresh
temporaries. -/
def execute (m : Machine β) (pc : Address) (steps : Nat) (code : List Stmt) :
    Machine β × Outcome :=
  (m.withCore fun c => { c with temps := [] }).run pc code steps code

end Machine

end Tricore
