import Tricore.Effect.Intrinsic
import Tricore.Exec.Eval
import Tricore.Exec.Scramble

/-!
# Executing intrinsics

Contexts, interrupt control, special function registers and bit shuffles. Cache, address mapping
and synchronisation have no effect on the state kept here; what is left is not modeled and traps.
-/

namespace Tricore

namespace Machine

variable {β : Type} [Bus β]

def withCore (m : Machine β) (f : Core → Core) : Machine β := { m with core := f m.core }

/-- Store registers at consecutive words, up to the first that cannot be stored. -/
def storeRegisters (m : Machine β) (addr : Address) : List Register → Machine β × Option Trap
  | [] => (m, none)
  | r :: rs =>
    match m.store addr .word (m.core.read r) with
    | (m, none) => m.storeRegisters (addr + 4) rs
    | (m, some trap) => (m, some trap)

/-- Load registers from consecutive words, up to the first that cannot be loaded. -/
def loadRegisters (m : Machine β) (addr : Address) : List Register → Machine β × Option Trap
  | [] => (m, none)
  | r :: rs =>
    match m.load addr .word with
    | .ok v => (m.withCore (·.write r v)).loadRegisters (addr + 4) rs
    | .error trap => (m, some trap)

def restore (m : Machine β) (kind : ContextKind) : Machine β × Option Trap :=
  match m.core.restoreContext kind with
  | .ok core => ({ m with core }, none)
  | .error trap => (m, some trap)

/-- Begin an interrupt service: save the lower context, set the priority and enable interrupts. -/
def beginService (priority : Value) (c : Core) : Core :=
  let c := c.saveContext .lower
  let old := c.read (.csfr Core.icr) &&& ~~~0xFF
  (c.write (.csfr Core.icr) (old ||| (priority &&& 0xFF))).setInterrupts true

/-- Execute an intrinsic of the instruction at `pc`. Missing arguments are zero, and a result
without an output is dropped. -/
def intrinsic (m : Machine β) (pc : Address) (i : Intrinsic) (outputs : List Register)
    (args : List Value) : Machine β × Option Trap :=
  let arg := fun n => args.getD n 0
  let argWord := fun n => (arg n).setWidth 32
  let update := fun f => (m.withCore f, none)
  let result := fun v => update fun c => match outputs with | [] => c | r :: _ => c.write r v
  match i with
  | .saveUpperContext => update (·.saveContext .upper)
  | .saveLowerContext => update (·.saveContext .lower)
  | .restoreUpperContext => m.restore .upper
  | .restoreLowerContext => m.restore .lower
  | .storeUpperContext => m.storeRegisters (argWord 0) ContextKind.upper.layout.toList
  | .storeLowerContext => m.storeRegisters (argWord 0) ContextKind.lower.layout.toList
  | .loadUpperContext => m.loadRegisters (argWord 0) ContextKind.upper.layout.toList
  | .loadLowerContext => m.loadRegisters (argWord 0) ContextKind.lower.layout.toList
  | .bisr => update (beginService (arg 0))
  | .mfcr => result (m.core.read (.csfr ((arg 0).setWidth 16)))
  | .mtcr => result (arg 1)
  | .enableInterrupts => update (·.setInterrupts true)
  | .disableInterrupts => update (·.setInterrupts false)
  | .disableInterruptsSaving =>
    let was := truth m.core.interruptsEnabled
    update fun c =>
      let c := c.setInterrupts false
      match outputs with
      | [] => c
      | r :: _ => c.write r was
  | .restoreInterrupts => update (·.setInterrupts ((arg 0).getLsbD 0))
  | .dsync | .isync | .wait | .cacheWriteback | .cacheWritebackInvalidate | .cacheInvalidate
  | .tlbDemap | .tlbFlushA | .tlbFlushB | .tlbProbeA | .tlbProbeI | .tlbMap => (m, none)
  | .breakpoint => (m, some .breakpoint)
  | .syscall => (m, some (.syscall pc (argWord 0)))
  | .overflowTrap => (m, some (.overflow pc))
  | .bitReverseStep => result ((bitReverseStep (argWord 0)).setWidth 64)
  | .parity => result ((parity (argWord 0)).setWidth 64)
  | .bmerge => result ((bmerge (argWord 0) (argWord 1)).setWidth 64)
  | .bsplit => result (bsplit (argWord 0))
  | i => (m, some (.unsupported pc i.name))

end Machine

end Tricore
