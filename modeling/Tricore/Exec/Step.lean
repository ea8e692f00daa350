import Tricore.Exec.Run
import Tricore.Lift

/-!
# Executing instructions

A step fetches, decodes and lifts the instruction at the program counter, moves the program
counter past it, and executes its statements. Branches inside one instruction go forward only, so
its statements need no more steps than there are statements.
-/

namespace Tricore

namespace Machine

variable {β : Type} [Bus β]

/-- The bytes that can be read from `addr` on, at most `n`. -/
def readable (bus : β) (addr : Address) : Nat → List Byte
  | 0 => []
  | n + 1 =>
    match Bus.readByte bus addr with
    | .ok b => b :: readable bus (addr + 1) n
    | .error _ => []

/-- The up to four bytes at `pc`; only the first must be there. -/
def fetch (bus : β) (pc : Address) : Except Fault (List Byte) := do
  let b ← Bus.readByte bus pc
  return b :: readable bus (pc + 1) 3

/-- Execute an instruction; the program counter changes only if the instruction changes it. -/
def perform (m : Machine β) (i : Instruction) : Machine β × Outcome :=
  match i.lift .empty with
  | .ok t => m.execute i.addr t.stmts.length t.stmts
  | .error _ => (m, .trapped (.invalidInstruction i.addr))

def step (isa : Isa) (m : Machine β) : Machine β × Outcome :=
  let pc := m.core.pc
  match fetch m.bus pc with
  | .error fault => (m, .trapped (.bus pc fault))
  | .ok bytes =>
    match Instruction.decode isa bytes pc with
    | .error _ => (m, .trapped (.invalidInstruction pc))
    | .ok i => (m.withCore fun c => { c with pc := i.next }).perform i

/-- Up to `n` more steps after `completed` ones, to the first that does not complete; how many did
in all, and what stopped them. -/
def stepsFrom (isa : Isa) (completed : Nat) (m : Machine β) : Nat → Machine β × Nat × Outcome
  | 0 => (m, completed, .done)
  | n + 1 =>
    match m.step isa with
    | (m, .done) => stepsFrom isa (completed + 1) m n
    | (m, outcome) => (m, completed, outcome)

/-- Up to `n` steps. -/
def steps (isa : Isa) (m : Machine β) (n : Nat) : Machine β × Nat × Outcome :=
  m.stepsFrom isa 0 n

end Machine

end Tricore
