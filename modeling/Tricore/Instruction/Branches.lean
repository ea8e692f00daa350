import Tricore.Instruction

/-!
# Control-flow edges

The edges that leave an instruction, as far as its encoding tells. No edge means that control falls
through to the next instruction.
-/

namespace Tricore

inductive Edge where
  | unconditional (target : Address)
  /-- A conditional branch that is taken. -/
  | taken (target : Address)
  /-- A conditional branch that is not taken. -/
  | notTaken (target : Address)
  | call (target : Address)
  | indirect (through : Register)
  | indirectCall (through : Register)
  | ret
  /-- Control may leave, to where is not known. -/
  | unresolved
  deriving DecidableEq, Repr

namespace Instruction

def firstRegister? (i : Instruction) : Option Register :=
  i.operands.findSome? fun | .reg r => some r | _ => none

def edges (i : Instruction) : List Edge :=
  match i.row.action.flow, i.target? with
  | .fallThrough, _ => []
  | .unconditional, some t => [.unconditional t]
  | .conditional, some t => [.taken t, .notTaken i.next]
  | .call, some t => [.call t]
  | .indirect, _ => [(i.firstRegister?.map .indirect).getD .unresolved]
  | .indirectCall, _ => [(i.firstRegister?.map .indirectCall).getD .unresolved]
  | .ret, _ => [.ret]
  | .unresolved, _ | _, none => [.unresolved]

end Instruction

end Tricore
