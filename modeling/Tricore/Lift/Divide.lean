import Tricore.Lift.Operands

/-!
# Division

A quotient goes to the low word of a pair and the remainder to the high word. Division by zero,
and of the least signed word by minus one, overflows; the sticky advanced flag stays as it is.
-/

namespace Tricore.Lift

def divisionOverflow (s : Sign) (a b : Expr) : Expr :=
  let byZero := Expr.compare .eq .word b (.const .word 0)
  match s with
  | .unsigned => byZero
  | .signed =>
    .or .byte byZero
      (.and .byte (.compare .eq .word a (.const .word 0x80000000))
        (.compare .eq .word b (.const .word 0xFFFFFFFF)))

/-- The dividend as a pair, shifted left by `n`; a signed one has the quotient's sign in the
places that the shift vacates. -/
def dividend (s : Sign) (n : Nat) (a b : Expr) : Expr :=
  let extended := Expr.extend s .double a
  let shifted := Expr.shl .double extended (.const .double (.ofNat 64 n))
  if n = 0 then extended
  else
    match s with
    | .unsigned => shifted
    | .signed =>
      let sign := Expr.bit (.xor .word a b) 31
      .or .double shifted
        (.and .double (.neg .double (.zext .double sign))
          (.const .double (.ofNat 64 ((1 <<< n) - 1))))

namespace Plan

def divide (sign : Sign) (s : Source) : Plan := do
  let dst ← s.reg 0
  let a ← s.value 1
  let b ← s.value 2
  let (div, mod) : BinOp × BinOp :=
    match sign with
    | .signed => (.divS, .modS)
    | .unsigned => (.divU, .modU)
  emitting do
    let a ← temp a
    let b ← temp b
    let quotient ← temp (.binary div .word a b)
    overflowStatus (divisionOverflow sign a b) quotient.advanced
    set dst (.pair (.binary mod .word a b) quotient)

/-- The dividend for a sequence of division steps, one for each byte of the quotient. -/
def divideInit (l : Lane) (sign : Sign) (s : Source) : Plan := do
  let dst ← s.reg 0
  let a ← s.value 1
  let b ← s.value 2
  let overflows : Sign := if l = .word then sign else .unsigned
  emitting do
    let a ← temp a
    let b ← temp b
    overflowStatus (divisionOverflow overflows a b) (.const .byte 0)
    set dst (dividend sign (32 - l.bits) a b)

end Plan

end Tricore.Lift
