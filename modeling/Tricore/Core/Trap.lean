import Tricore.Memory.Bus

/-!
# Traps

Why execution stopped, with the address of the instruction or of the access that caused it.
-/

namespace Tricore

inductive Trap where
  | invalidInstruction (pc : Address)
  | unaligned (addr : Address)
  | bus (addr : Address) (fault : Fault)
  | breakpoint
  | syscall (pc : Address) (number : Word)
  | overflow (pc : Address)
  /-- A context was to be restored and none is saved. -/
  | contextUnderflow (pc : Address)
  | unsupported (pc : Address) (what : String)
  deriving DecidableEq, Repr

namespace Trap

def message : Trap → String
  | invalidInstruction pc => s!"Invalid instruction at {Text.hexAddress pc}"
  | unaligned addr => s!"Unaligned access at {Text.hexAddress addr}"
  | bus addr fault => s!"Bus error at {Text.hexAddress addr}: {fault.message}"
  | breakpoint => "Breakpoint"
  | syscall pc number => s!"System call {number.toNat} at {Text.hexAddress pc}"
  | overflow pc => s!"Overflow trap at {Text.hexAddress pc}"
  | contextUnderflow pc => s!"Context list underflow at {Text.hexAddress pc}"
  | unsupported pc what => s!"{what} is not modeled (at {Text.hexAddress pc})"

/-- The name in exported data. -/
def tag : Trap → String
  | invalidInstruction _ => "InvalidInstruction"
  | unaligned _ => "Unaligned"
  | bus _ _ => "Bus"
  | breakpoint => "Break"
  | syscall _ _ => "Syscall"
  | overflow _ => "Overflow"
  | contextUnderflow _ => "ContextUnderflow"
  | unsupported _ _ => "Unsupported"

end Trap

end Tricore
