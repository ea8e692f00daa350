import Tricore.Effect.Expr
import Tricore.Effect.Intrinsic

/-!
# Effect statements

What an instruction does is a list of statements. Control flow inside the list is by labels:
`branch` and `goto` continue at the statement that marks the label.
-/

namespace Tricore

structure Label where
  id : Nat
  deriving DecidableEq, Repr, Inhabited

def Label.name (l : Label) : String := s!"L{l.id}"

inductive Stmt where
  | setReg (r : Register) (value : Expr)
  | setFlag (f : Flag) (value : Expr)
  | store (w : Width) (addr value : Expr)
  | jump (target : Expr)
  | call (target : Expr)
  | ret (target : Expr)
  | branch (cond : Expr) (yes no : Label)
  | goto (l : Label)
  | mark (l : Label)
  | intrinsic (i : Intrinsic) (outputs : List Register) (inputs : List Expr)
  | nop
  /-- What happens here is not defined. -/
  | undefined
  deriving Repr, Inhabited

namespace Stmt

def print : Stmt → String
  | setReg r value => s!"{r.name} = {value.print}"
  | setFlag f value => s!"flag:{f.name} = {value.print}"
  | store w addr value => s!"[{addr.print}].{w.bytes} = {value.print}"
  | jump target => s!"jump({target.print})"
  | call target => s!"call({target.print})"
  | ret target => s!"ret({target.print})"
  | branch cond yes no => s!"if ({cond.print}) goto {yes.name} else goto {no.name}"
  | goto l => s!"goto {l.name}"
  | mark l => s!"{l.name}:"
  | intrinsic i outputs inputs =>
    let call := i.name ++ "(" ++ ", ".intercalate (inputs.map (·.print)) ++ ")"
    match outputs with
    | [] => call
    | _ => ", ".intercalate (outputs.map (·.name)) ++ " = " ++ call
  | nop => "nop"
  | undefined => "undefined"

end Stmt

/-- The flags that a list of statements writes. -/
def flagsWritten (stmts : List Stmt) : FlagSet :=
  stmts.foldl (fun s stmt => match stmt with | .setFlag f _ => s.insert f | _ => s) .empty

end Tricore
