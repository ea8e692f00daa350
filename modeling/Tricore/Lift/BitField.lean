import Tricore.Lift.Operands

/-!
# Bit fields and single bits

A field is given by its position and its width: two constants, or numbers in the low five bits of
registers.
-/

namespace Tricore.Lift

/-- Ones in the field and zeros around it. -/
def fieldMask : Amount → Amount → Expr
  | .static pos, .static width =>
    let ones : Word := if 32 ≤ width then .allOnes 32 else (1 <<< width) - 1
    .word (ones <<< (pos % 32))
  | pos, width =>
    .shl .word (.sub .word (.shl .word (.const .word 1) width.expr) (.const .word 1)) pos.expr

namespace Source

/-- Position and width from operand `i` on: a data pair holds both, else there are two operands. -/
def field (s : Source) (i : Nat) : Read (Amount × Amount) := do
  match ← s.operand i with
  | .reg (.e n) => return (.ofRegister (.d n), .ofRegister (.d (n + 1)))
  | _ => return (← s.amount i, ← s.amount (i + 1))

/-- The bit of operand `i` whose number is operand `i + 1`. -/
def bit (s : Source) (i : Nat) : Read Expr := do
  let value ← s.value i
  let pos ← s.count (i + 1)
  return value.bit pos

end Source

namespace Plan

def extract (sign : Sign) (s : Source) : Plan := do
  let dst ← s.reg 0
  let src ← s.value 1
  let (pos, width) ← s.field 2
  let shift : BinOp := match sign with | .signed => .asr | .unsigned => .lsr
  match pos, width with
  | .static pos, .static width =>
    let up := Expr.const .word (.ofNat 64 (32 - (pos + width)))
    let down := Expr.const .word (.ofNat 64 (32 - width))
    emitting <| set dst (.binary shift .word (.shl .word src up) down)
  | pos, width =>
    emitting do
      let width ← temp width.expr
      let up := Expr.sub .word (.sub .word (.const .word 32) pos.expr) width
      let down := Expr.sub .word (.const .word 32) width
      set dst (.binary shift .word (.shl .word src up) down)

def insert (s : Source) : Plan := do
  let dst ← s.reg 0
  let base ← s.value 1
  let src ← s.value 2
  let (pos, width) ← s.field 3
  emitting do
    let mask ← temp (fieldMask pos width)
    let placed := Expr.and .word (.shl .word src pos.expr) mask
    set dst (.or .word (.and .word base (.not .word mask)) placed)

/-- The mask in the high word, the shifted source in the low word. -/
def insertMask (s : Source) : Plan := do
  let dst ← s.reg 0
  let src ← s.value 1
  let (pos, width) ← s.field 2
  emitting <| set dst (.pair (fieldMask pos width) (.shl .word src pos.expr))

/-- The upper word of two words shifted left together. -/
def extractDouble (s : Source) : Plan := do
  let dst ← s.reg 0
  let hi ← s.value 1
  let lo ← s.value 2
  let pos ← s.amount 3
  emitting <| set dst (Expr.shl .double (.pair hi lo) (.zext .double pos.expr)).highWord

def bitLogic (op : LogicOp) (acc : Option Combine) (s : Source) : Plan := do
  let dst ← s.reg 0
  let a ← s.bit 1
  let b ← s.bit 3
  let result := Expr.and .byte (.combine op .byte a b) (.const .byte 1)
  emitting <| set dst (match acc with
    | none => .zext .word result
    | some acc => .fold acc (.reg dst) result)

def insertBit (negate : Bool) (s : Source) : Plan := do
  let dst ← s.reg 0
  let base ← s.value 1
  let pos ← s.count 2
  let b ← s.bit 3
  let b := if negate then .xor .byte b (.const .byte 1) else b
  let cleared := Expr.and .word base (.word (~~~(1 <<< (pos % 32))))
  emitting <| set dst
    (.or .word cleared (.shl .word (.zext .word b) (.const .word (.ofNat 64 pos))))

end Plan

end Tricore.Lift
