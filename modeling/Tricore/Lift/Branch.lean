import Tricore.Lift.Memory

/-!
# Jumps, calls and returns

An address the host has a label for is reached by a goto, every other one by a jump. Plain calls
save the upper context and leave the return address in the link register; fast calls push the link
register on the stack instead.
-/

namespace Tricore.Lift

def jumpTo (target : Address) : Emit Unit := do
  match ← labelAt? target with
  | some label => emit (.goto label)
  | none => emit (.jump (.word target))

/-- Go to `target` if the condition holds, else to `next`. A side without a label of the host's gets
a new one, and its code follows. -/
def branchTo (cond : Expr) (target next : Address) : Emit Unit := do
  let taken? ← labelAt? target
  let fall? ← labelAt? next
  let taken ← (match taken? with | some l => pure l | none => newLabel : Emit Label)
  let fall ← (match fall? with | some l => pure l | none => newLabel : Emit Label)
  emit (.branch cond taken fall)
  if taken?.isNone then
    mark taken
    emit (.jump (.word target))
  if fall?.isNone then mark fall

/-- A 0/1 word, tested. -/
def isSet (e : Expr) : Expr := .compare .ne .word e (.const .word 0)

def saveAndLink (next : Address) : Emit Unit := do
  intrinsic .saveUpperContext [.pcxi] []
  set .link (.word next)

def pushLink (next : Address) : Emit Unit := do
  set .stackPointer (.sub .word (.reg .stackPointer) (.const .word 4))
  store .word (.reg .stackPointer) (.reg .link)
  set .link (.word next)

namespace Plan

def jump (s : Source) : Plan := do
  let target ← s.target 0
  emitting <| jumpTo target

def jumpIndirect (s : Source) : Plan := do
  let r ← s.reg 0
  emitting do emit (.jump (← temp (.aligned r)))

/-- A call of a constant target, after the link has been made. -/
def callDirect (link : Address → Emit Unit) (s : Source) : Plan := do
  let target ← s.target 0
  emitting do
    link s.next
    emit (.call (.word target))

/-- A call through a register, which is read before the link is made. -/
def callThrough (link : Address → Emit Unit) (s : Source) : Plan := do
  let r ← s.reg 0
  emitting do
    let dest ← temp (.aligned r)
    link s.next
    emit (.call dest)

/-- Leave the return address in the link register and save nothing. -/
def linkOnly (next : Address) : Emit Unit := set .link (.word next)

/-- Return through the link register and restore the upper context. -/
def ret : Plan :=
  emitting do
    let dest ← temp (.aligned .link)
    intrinsic .restoreUpperContext upperRegisters []
    emit (.ret dest)

def fastRet : Plan :=
  emitting do
    let dest ← temp (.aligned .link)
    set .link (.load .word (.reg .stackPointer))
    set .stackPointer (.add .word (.reg .stackPointer) (.const .word 4))
    emit (.ret dest)

def retMonitor : Plan :=
  emitting do
    let dest ← temp (.reg .link)
    intrinsic .restoreDebug [.pcxi, .psw, .stackPointer, .link] []
    emit (.ret dest)

/-- Compare the first operand with the second, or with zero, and branch. -/
def branch (c : Condition) (s : Source) : Plan := do
  let lhs ← s.value 0
  let rhs ← (if s.arity = 3 then s.value 1 else pure (.const .word 0) : Read Expr)
  let target ← s.target (s.arity - 1)
  emitting <| branchTo (.compare c.op .word lhs rhs) target s.next

def branchBit (wanted : Bool) (s : Source) : Plan := do
  let bit ← s.value 0
  let n ← s.count 1
  let target ← s.target 2
  let one : Value := if wanted then 1 else 0
  emitting <| branchTo (.compare .eq .byte (bit.bit n) (.const .byte one)) target s.next

/-- Compare, step the register, then branch on the comparison. -/
def branchStep (step : Word) (s : Source) : Plan := do
  let r ← s.reg 0
  let rhs ← s.value 1
  let target ← s.target 2
  emitting do
    let differ ← temp (.compare .ne .word (.reg r) rhs)
    set r (.add .word (.reg r) (.word step))
    branchTo (isSet differ) target s.next

/-- Branch while the counter was not zero; it goes down by one either way. -/
def loop (s : Source) : Plan := do
  let r ← s.reg 0
  let target ← s.target 1
  emitting do
    let again ← temp (.compare .ne .word (.reg r) (.const .word 0))
    set r (.sub .word (.reg r) (.const .word 1))
    branchTo (isSet again) target s.next

end Plan

end Tricore.Lift
