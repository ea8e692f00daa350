import Tricore.Instruction.Branches
import Tricore.Instruction.Text
import Tricore.Lift.BitField
import Tricore.Lift.Branch
import Tricore.Lift.Divide
import Tricore.Lift.Float
import Tricore.Lift.Fraction
import Tricore.Lift.Lanes
import Tricore.Lift.Logic
import Tricore.Lift.Platform

/-!
# Lifting

`Instruction.liftInto` turns one instruction into statements at the end of a trace; `Instruction.lift`
is the trace it gives, if the instruction can be lifted.

`probe`, `render` and `liftBytes` are what a host calls with bytes: they decode, and refuse bad
encodings and instructions without effects in one way.
-/

namespace Tricore

namespace Lift

/-- The effects of an action on its operands. -/
def plan (s : Source) : Action → Plan
  | .add => Plan.addSub .add s
  | .addSat sign => Plan.addSubSat .add sign s
  | .addCarry => Plan.carry false true s
  | .addExtended => Plan.carry false false s
  | .sub => Plan.addSub .sub s
  | .subSat sign => Plan.addSubSat .sub sign s
  | .subCarry => Plan.carry true true s
  | .subExtended => Plan.carry true false s
  | .rsub => Plan.rsub s
  | .rsubSat sign => Plan.rsubSat sign s
  | .addScaled => Plan.addScaled s
  | .addBitIndex => Plan.addBitIndex s
  | .packed op lane => Plan.packed op lane s
  | .saturate lane sign => Plan.saturate lane sign s
  | .compare c => Plan.compare c none s
  | .compareInto c acc => Plan.compare c (some acc) s
  | .anyEqual lane => Plan.anyEqual lane s
  | .logic op => Plan.logic op s
  | .complement => Plan.complement s
  | .shift kind => Plan.shift kind s
  | .count kind lane => Plan.count kind lane s
  | .condArith subtract negate => Plan.condArith subtract negate s
  | .select negate => Plan.select negate s
  | .condMove negate => Plan.condMove negate s
  | .move => Plan.move s
  | .movePair => Plan.movePair s
  | .loadAddress => Plan.loadAddress s
  | .multiply sign wide sat => Plan.multiply sign wide sat s
  | .multiplyAdd subtract sign wide sat => Plan.multiplyAdd subtract sign wide sat s
  | .halfMultiply halves hi lo shape sat => Plan.halfMultiply halves hi lo shape sat s
  | .fractionMultiply src wide acc round sat => Plan.fractionMultiply src wide acc round sat s
  | .divide sign => Plan.divide sign s
  | .divideInit lane sign => Plan.divideInit lane sign s
  | .extract sign => Plan.extract sign s
  | .insert => Plan.insert s
  | .insertMask => Plan.insertMask s
  | .extractDouble => Plan.extractDouble s
  | .bitLogic op acc => Plan.bitLogic op acc s
  | .insertBit negate => Plan.insertBit negate s
  | .load kind => Plan.load kind s
  | .store kind => Plan.store kind s
  | .storeBit => Plan.storeBit s
  | .loadModifyStore => Plan.loadModifyStore s
  | .swap => Plan.swap s
  | .compareSwap => Plan.compareSwap s
  | .swapMasked => Plan.swapMasked s
  | .context i => Plan.context i s
  | .cache i => Plan.cache i s
  | .jump | .loopForever => Plan.jump s
  | .jumpIndirect => Plan.jumpIndirect s
  | .jumpLink => Plan.callDirect Plan.linkOnly s
  | .jumpLinkIndirect => Plan.callThrough Plan.linkOnly s
  | .call => Plan.callDirect saveAndLink s
  | .callIndirect => Plan.callThrough saveAndLink s
  | .fastCall => Plan.callDirect pushLink s
  | .fastCallIndirect => Plan.callThrough pushLink s
  | .ret | .retException => Plan.ret
  | .fastRet => Plan.fastRet
  | .retMonitor => Plan.retMonitor
  | .branch c => Plan.branch c s
  | .branchBit wanted => Plan.branchBit wanted s
  | .branchStep step => Plan.branchStep step s
  | .loop => Plan.loop s
  | .platform i => Plan.platform i s
  | .nop => emitting (emit .nop)
  | .trapOn f => Plan.trapOn f
  | .readCsfr => Plan.readCsfr s
  | .writeCsfr => Plan.writeCsfr s
  | .dataIntrinsic i => Plan.dataIntrinsic i s
  | .float op => Plan.float op s
  | .floatMultiplyAdd subtract => Plan.floatMultiplyAdd subtract s
  | .floatCompare => Plan.floatCompare s
  | .floatConvert c => Plan.floatConvert c s
  | .updateFlags => Plan.updateFlags s

end Lift

namespace Instruction

/-- The effects of an instruction, still to be given labels. -/
def plan (i : Instruction) : Lift.Plan := Lift.plan (.of i) i.row.action

/-- Lift an instruction into a trace. Its statements are kept back until all of it has been lifted,
but its labels are taken from the trace one by one. -/
def liftInto (i : Instruction) (t : Trace) : Except Lift.OperandError Unit × Trace :=
  match i.plan (.of t) with
  | (.ok (), stmts, supply) =>
    (.ok (), { t with stmts := t.stmts ++ stmts, nextLabel := supply.labels })
  | (.error e, _, supply) => (.error e, { t with nextLabel := supply.labels })

/-- The trace with the effects of an instruction at its end. -/
def lift (i : Instruction) (t : Trace) : Except Lift.OperandError Trace :=
  match i.liftInto t with
  | (.ok (), t) => .ok t
  | (.error e, _) => .error e

end Instruction

/-- Length and control flow of the instruction at `addr`, seen through at most `max` bytes. -/
def probe (isa : Isa) (bytes : List Byte) (addr : Address) (max : Nat) :
    Except DecodeError (Nat × List Edge) := do
  let i ← Instruction.decode isa (bytes.take max) addr
  return (i.length, i.edges)

/-- Length and text of the instruction at `addr`. -/
def render (isa : Isa) (bytes : List Byte) (addr : Address) :
    Except DecodeError (Nat × List Token) := do
  let i ← Instruction.decode isa bytes addr
  return (i.length, i.tokens)

/-- Append the effects of the instruction at `addr`, and give its length. -/
def liftBytes (isa : Isa) (bytes : List Byte) (addr : Address) (t : Trace) :
    Except DecodeError (Nat × Trace) := do
  let i ← Instruction.decode isa bytes addr
  match i.lift t with
  | .ok t => return (i.length, t)
  | .error _ => .error (.unliftable addr i.mnemonic i.length)

end Tricore
