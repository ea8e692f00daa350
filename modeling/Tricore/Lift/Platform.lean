import Tricore.Lift.Memory

/-!
# Platform operations

Special function registers, interrupt control, traps, and operations left to an intrinsic.
-/

namespace Tricore.Lift.Plan

def platform (i : Intrinsic) (s : Source) : Plan := do
  match i with
  | .disableInterruptsSaving =>
    let dst ← s.reg 0
    emitting <| intrinsic i [dst] []
  | .saveLowerContext | .bisr =>
    let inputs ← s.values 0
    emitting <| intrinsic i [.pcxi] inputs
  | .restoreLowerContext => emitting <| intrinsic i lowerRegisters []
  | _ =>
    let inputs ← s.values 0
    emitting <| intrinsic i [] inputs

/-- Trap if the flag is set. -/
def trapOn (f : Flag) : Plan :=
  emitting do
    let raise ← newLabel
    let skip ← newLabel
    emit (.branch (.flag f) raise skip)
    mark raise
    intrinsic .overflowTrap [] []
    mark skip

def readCsfr (s : Source) : Plan := do
  let dst ← s.reg 0
  let offset ← s.csfr 1
  emitting <| intrinsic .mfcr [dst] [.const .half (offset.setWidth 64)]

/-- The output is the register that the offset views, if it views one, so that a write to the
status word or the context link can be seen. -/
def writeCsfr (s : Source) : Plan := do
  let offset ← s.csfr 0
  let src ← s.value 1
  emitting <| intrinsic .mtcr [Register.canonical (.csfr offset)]
    [.const .half (offset.setWidth 64), src]

/-- The first operand is written, the others are read. -/
def dataIntrinsic (i : Intrinsic) (s : Source) : Plan := do
  let dst ← s.reg 0
  let inputs ← s.values 1
  emitting <| intrinsic i [dst] inputs

end Tricore.Lift.Plan
