import Tricore.Lift.Operands

/-!
# Shifts

A count of zero or more shifts left, a negative one right. A count in a register is a signed
number in its low bits.
-/

namespace Tricore.Lift

/-- A shift count: a constant as it is, or the low `32 - unused` bits of a register, signed. -/
def shiftCount (unused : Value) : Expr → Expr
  | .const _ value => .word (value.setWidth 32)
  | count => .asr .word (.shl .word count (.const .word unused)) (.const .word unused)

namespace Plan

def shift (kind : ShiftKind) (s : Source) : Plan := do
  let (dst, src, count) ← s.binary
  emitting do
    let src ← temp src
    let count ← temp (shiftCount 26 count)
    let left := Expr.compare .sge .word count (.const .word 0)
    let rightBy := Expr.neg .word count
    let shl := Expr.shl .word src count
    let asr := Expr.asr .word src rightBy
    match kind with
    | .logical => set dst (.select .word left shl (.lsr .word src rightBy))
    | .arithmetic =>
      let left ← temp left
      let wide ← temp (.shl .double (.sext .double src) count)
      let shiftedOut := Expr.compare .ne .word
        (.lsr .word src (.sub .word (.const .word 32) count)) (.const .word 0)
      let mask := Expr.sub .word (.shl .word (.const .word 1) rightBy) (.const .word 1)
      let dropped := Expr.compare .ne .word (.and .word src mask) (.const .word 0)
      let result ← temp (.select .word left shl asr)
      setFlag .c (.select .byte left shiftedOut dropped)
      status (.and .byte (.low .byte left) (wide.overflow .word .signed)) result.advanced
      set dst result
    | .saturating =>
      let left ← temp left
      let wide ← temp (.shl .double (.sext .double src) count)
      let result ← temp (.select .word left (wide.saturate .word .signed) asr)
      status (.and .byte (.low .byte left) (wide.overflow .word .signed)) result.advanced
      set dst result

/-- Both half-words shifted by the same count; `right` is the operation for negative counts. -/
def halfShift (right : BinOp) (s : Source) : Plan := do
  let (dst, src, count) ← s.binary
  emitting do
    let src ← temp src
    let count ← temp (shiftCount 27 count)
    let left := Expr.compare .sge .word count (.const .word 0)
    let rightBy := Expr.low .half (.neg .word count)
    let leftBy := Expr.low .half count
    let shifted := fun i =>
      let half := src.lane .half i
      Expr.select .half left (.shl .half half leftBy) (.binary right .half half rightBy)
    set dst (.pack .half [shifted 0, shifted 1])

end Plan

end Tricore.Lift
