import Tricore.Lift.Operands

/-!
# Sums and differences

Word arithmetic computes at 64 bits first: overflow is then the question whether the exact result
fits a word, and saturation clamps it.
-/

namespace Tricore.Lift

/-- `dst = lhs op rhs` with the overflow status of a signed word. -/
def wrapping (dst : Register) (op : BinOp) (lhs rhs : Expr) : Emit Unit := do
  let wide ← temp (.binary op .double (.sext .double lhs) (.sext .double rhs))
  let result ← temp (.low .word wide)
  status (wide.overflow .word .signed) result.advanced
  set dst result

/-- `dst = lhs op rhs`, clamped to a word of the given signedness. -/
def clamped (s : Sign) (dst : Register) (op : BinOp) (lhs rhs : Expr) : Emit Unit := do
  let wide ← temp (.binary op .double (.extend s .double lhs) (.extend s .double rhs))
  status (wide.overflow .word s) (Expr.low .word wide).advanced
  set dst (wide.saturate .word s)

/-- The condition of a conditional operation: the operand is not zero, or it is zero. -/
def condition (negate : Bool) (cond : Expr) : Expr :=
  .compare (if negate then .eq else .ne) .word cond (.const .word 0)

namespace Plan

/-- Address registers take the wrapped result and leave the status alone. -/
def addSub (op : BinOp) (s : Source) : Plan := do
  let (dst, lhs, rhs) ← s.binary
  emitting <|
    if dst.isAddress then set dst (.binary op .word lhs rhs) else wrapping dst op lhs rhs

def addSubSat (op : BinOp) (sign : Sign) (s : Source) : Plan := do
  let (dst, lhs, rhs) ← s.binary
  emitting <| clamped sign dst op lhs rhs

/-- Sums of 33 bits with their carry. A difference adds the complement; without a carry to take
in, it adds one more. -/
def carry (subtract useCarry : Bool) (s : Source) : Plan := do
  let (dst, lhs, rhs) ← s.binary
  let carryIn : Expr :=
    if useCarry then .zext .double (.flag .c)
    else .const .double (if subtract then 1 else 0)
  emitting do
    let lhs ← temp lhs
    let rhs ← temp (if subtract then .not .word rhs else rhs)
    let unsigned ← temp (.add .double
      (.add .double (.zext .double lhs) (.zext .double rhs)) carryIn)
    let signed ← temp (.add .double
      (.add .double (.sext .double lhs) (.sext .double rhs)) carryIn)
    let result ← temp (.low .word unsigned)
    setFlag .c (unsigned.bit 32)
    status (signed.overflow .word .signed) result.advanced
    set dst result

/-- The operands of a reverse subtraction: destination, minuend, subtrahend. -/
def reversed (s : Source) : Read (Register × Expr × Expr) := do
  match s.arity with
  | 3 => return (← s.reg 0, ← s.value 2, ← s.value 1)
  | 1 => return (← s.reg 0, .word 0, ← s.value 0)
  | n => s.bad _ n

def rsub (s : Source) : Plan := do
  let (dst, lhs, rhs) ← reversed s
  emitting <| wrapping dst .sub lhs rhs

def rsubSat (sign : Sign) (s : Source) : Plan := do
  let (dst, lhs, rhs) ← reversed s
  emitting <| clamped sign dst .sub lhs rhs

def addScaled (s : Source) : Plan := do
  let dst ← s.reg 0
  let base ← s.value 1
  let index ← s.value 2
  let n ← s.imm 3
  emitting <| set dst (.add .word base (.shl .word index (.const .word (.ofInt 64 n))))

def addBitIndex (s : Source) : Plan := do
  let dst ← s.reg 0
  let base ← s.value 1
  let index ← s.value 2
  emitting <| set dst (.add .word base (.lsr .word index (.const .word 3)))

def saturate (l : Lane) (sign : Sign) (s : Source) : Plan := do
  let (dst, src) ← s.unary
  emitting do
    let wide ← temp (.extend sign .double src)
    set dst (.extend sign .word (wide.saturate l.width sign))

/-- Destination and overflow flags change only if the condition holds. -/
def condArith (subtract negate : Bool) (s : Source) : Plan := do
  let (dst, cond, lhs, rhs) ←
    (match s.arity with
    | 4 => return (← s.reg 0, ← s.value 1, ← s.value 2, ← s.value 3)
    | 3 => return (← s.reg 0, ← s.value 1, ← s.value 0, ← s.value 2)
    | n => s.bad _ n : Read (Register × Expr × Expr × Expr))
  emitting do
    let taken := Expr.low .byte (← temp (condition negate cond))
    let lhs ← temp lhs
    let wide ← temp (.binary (if subtract then .sub else .add) .double
      (.sext .double lhs) (.sext .double rhs))
    let result ← temp (.low .word wide)
    status (.select .byte taken (wide.overflow .word .signed) (.flag .v))
      (.select .byte taken result.advanced (.flag .av))
    set dst (.select .word taken result lhs)

end Plan

end Tricore.Lift
