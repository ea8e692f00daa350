import Tricore.Effect.Intrinsic
import Tricore.Flag
import Tricore.Width

/-!
# What instructions do

An `Action` is the meaning that instructions of one family share: mnemonics that mean the same
thing in several formats have one action and differ in their operands. `Action.flow` is the class
of control flow of a family.
-/

namespace Tricore

/-- Lanes of a packed 32-bit word. -/
inductive Lane where
  | byte
  | half
  | word
  deriving DecidableEq, Repr

namespace Lane

def width : Lane → Width
  | byte => .byte
  | half => .half
  | word => .word

def bits (l : Lane) : Nat := l.width.bits

/-- How many lanes a word has. -/
def count : Lane → Nat
  | byte => 4
  | half => 2
  | word => 1

end Lane

inductive Condition where
  | eq
  | ne
  | lt
  | ltU
  | ge
  | geU
  | gt
  | le
  deriving DecidableEq, Repr

/-- How a truth value is folded into its destination. -/
inductive Combine where
  | and
  | or
  | xor
  /-- Shift the destination left by one and put the value into bit 0. -/
  | shift
  deriving DecidableEq, Repr

inductive LogicOp where
  | and
  | andn
  | nand
  | nor
  | or
  | orn
  | xnor
  | xor
  deriving DecidableEq, Repr

inductive ShiftKind where
  | logical
  | arithmetic
  | saturating
  deriving DecidableEq, Repr

/-- What is counted from the top of a lane. -/
inductive CountKind where
  | ones
  | signs
  | zeros
  deriving DecidableEq, Repr

/-- Lane-wise operations. -/
inductive LaneOp where
  | add
  | addSat (s : Sign)
  | sub
  | subSat (s : Sign)
  | abs
  | absSat
  | absDiff
  | absDiffSat
  | min (s : Sign)
  | max (s : Sign)
  | eq
  | lt (s : Sign)
  | shift
  | shiftArithmetic
  deriving DecidableEq, Repr

/-- What a load or store moves. -/
inductive Access where
  | byte
  | byteU
  | half
  | halfU
  | word
  | address
  | double
  | addressPair
  /-- A half-word that lives in the upper half of its register. -/
  | fraction
  deriving DecidableEq, Repr

def Access.width : Access → Width
  | byte | byteU => .byte
  | half | halfU | fraction => .half
  | word | address => .word
  | double | addressPair => .double

/-- Which half of the second source feeds the upper and the lower product (`ul`: the upper product
takes the upper half, the lower product the lower half). -/
inductive HalfPair where
  | ll
  | lu
  | ul
  | uu
  deriving DecidableEq, Repr

namespace HalfPair

def name : HalfPair → String
  | ll => "ll"
  | lu => "lu"
  | ul => "ul"
  | uu => "uu"

/-- Does the upper product take the upper half? -/
def upper : HalfPair → Bool
  | ul | uu => true
  | ll | lu => false

/-- Does the lower product take the upper half? -/
def lower : HalfPair → Bool
  | lu | uu => true
  | ll | ul => false

end HalfPair

/-- How a product meets its accumulator. -/
inductive Accumulate where
  | none
  | add
  | sub
  deriving DecidableEq, Repr

/-- What becomes of the two products of a packed multiply. -/
inductive ProductShape where
  /-- One product per word of a pair. -/
  | pair
  /-- Their sum times 2^16, in one 64-bit value. -/
  | merged
  /-- Both rounded into the half-words of one register. -/
  | rounded
  /-- As `rounded`, with a 64-bit accumulator. -/
  | roundedWide
  deriving DecidableEq, Repr

/-- Operands of a fraction multiply. -/
inductive FractionSource where
  | words
  | lower
  | upper
  | lowers
  | uppers
  deriving DecidableEq, Repr

inductive FloatOp where
  | add
  | sub
  | mul
  | div
  deriving DecidableEq, Repr

inductive FloatConversion where
  | toInt
  | toIntTrunc
  | toUInt
  | toUIntTrunc
  | ofInt
  | ofUInt
  | toFraction
  | toFractionTrunc
  | ofFraction
  | rsqrtSeed
  deriving DecidableEq, Repr

inductive Action where
  | add
  | addSat (s : Sign)
  | addCarry
  | addExtended
  | sub
  | subSat (s : Sign)
  | subCarry
  | subExtended
  | rsub
  | rsubSat (s : Sign)
  | addScaled
  /-- Add a bit index as a byte offset. -/
  | addBitIndex
  | packed (op : LaneOp) (lane : Lane)
  | saturate (lane : Lane) (s : Sign)
  | compare (c : Condition)
  | compareInto (c : Condition) (acc : Combine)
  | anyEqual (lane : Lane)
  | logic (op : LogicOp)
  | complement
  | shift (kind : ShiftKind)
  | count (kind : CountKind) (lane : Lane)
  | condArith (subtract negate : Bool)
  | select (negate : Bool)
  | condMove (negate : Bool)
  | move
  | movePair
  | loadAddress
  | multiply (s : Sign) (wide sat : Bool)
  | multiplyAdd (subtract : Bool) (s : Sign) (wide sat : Bool)
  | halfMultiply (halves : HalfPair) (hi lo : Accumulate) (shape : ProductShape) (sat : Bool)
  | fractionMultiply (src : FractionSource) (wide : Bool) (acc : Accumulate) (round sat : Bool)
  | divide (s : Sign)
  | divideInit (lane : Lane) (s : Sign)
  | extract (s : Sign)
  | insert
  | insertMask
  | extractDouble
  | bitLogic (op : LogicOp) (acc : Option Combine)
  | insertBit (negate : Bool)
  | load (kind : Access)
  | store (kind : Access)
  | storeBit
  | loadModifyStore
  | swap
  | compareSwap
  | swapMasked
  | context (i : Intrinsic)
  | cache (i : Intrinsic)
  | jump
  | jumpIndirect
  | jumpLink
  | jumpLinkIndirect
  | call
  | callIndirect
  | fastCall
  | fastCallIndirect
  | ret
  | fastRet
  | retException
  | retMonitor
  | branch (c : Condition)
  | branchBit (set : Bool)
  /-- Branch on difference, then add `step` to the register compared. -/
  | branchStep (step : Word)
  | loop
  | loopForever
  | platform (i : Intrinsic)
  | nop
  | trapOn (f : Flag)
  | readCsfr
  | writeCsfr
  /-- A data operation left to an intrinsic. -/
  | dataIntrinsic (i : Intrinsic)
  | float (op : FloatOp)
  | floatMultiplyAdd (subtract : Bool)
  | floatCompare
  | floatConvert (c : FloatConversion)
  | updateFlags
  deriving DecidableEq, Repr

/-- Classes of control flow. -/
inductive Flow where
  | fallThrough
  | unconditional
  | conditional
  | call
  | indirect
  | indirectCall
  | ret
  | unresolved
  deriving DecidableEq, Repr

/-- The name in exported data. -/
def Flow.tag : Flow → String
  | fallThrough => "FallThrough"
  | unconditional => "Unconditional"
  | conditional => "Conditional"
  | call => "Call"
  | indirect => "Indirect"
  | indirectCall => "IndirectCall"
  | ret => "Return"
  | unresolved => "Unresolved"

def Action.flow : Action → Flow
  | jump | loopForever => .unconditional
  | branch _ | branchBit _ | branchStep _ | loop => .conditional
  | call | fastCall | jumpLink => .call
  | jumpIndirect => .indirect
  | callIndirect | fastCallIndirect | jumpLinkIndirect => .indirectCall
  | ret | fastRet | retException | retMonitor => .ret
  | trapOn _ => .unresolved
  | _ => .fallThrough

end Tricore
