import Tricore.Effect.Expr
import Tricore.Opcode.Action

/-!
# Branch-free idioms

Expressions that instructions share: choice by a 0/1 condition (`select`), overflow of a 64-bit
intermediate result (`overflow`), clamping (`saturate`), the advanced overflow rule (`advanced`),
and lanes taken out of a word (`lane`) and put together again (`pack`).
-/

namespace Tricore

namespace Sign

/-- Least and greatest number of a width. -/
def limits (s : Sign) (w : Width) : Int × Int :=
  match s with
  | signed =>
    let half : Nat := 1 <<< (w.bits - 1)
    (-half, half - 1)
  | unsigned =>
    let count : Nat := 1 <<< w.bits
    (0, count - 1)

end Sign

namespace Expr

/-- Zero-extended or cut to a width, as needed. -/
def resize (w : Width) (e : Expr) : Expr :=
  if e.width.bytes < w.bytes then .zext w e
  else if w.bytes < e.width.bytes then .low w e
  else e

/-- Bit `n` as a byte, 0 or 1. -/
def bit (e : Expr) (n : Nat) : Expr :=
  let shifted := if n = 0 then e else .lsr e.width e (.const e.width (.ofNat 64 n))
  .and .byte (.low .byte shifted) (.const .byte 1)

/-- `yes` if the condition is 1 and `no` if it is 0: `no ^ ((yes ^ no) & -cond)`. -/
def select (w : Width) (cond yes no : Expr) : Expr :=
  .xor w no (.and w (.xor w yes no) (.neg w (cond.resize w)))

/-- Advanced overflow: the two top bits differ. -/
def advanced (result : Expr) : Expr :=
  let w := result.width
  bit (.xor w result (.shl w result (.const w 1))) (w.bits - 1)

/-- 1 if the 64-bit value does not fit the width in the given signedness. -/
def overflow (wide : Expr) (w : Width) (s : Sign) : Expr :=
  .compare .ne .double wide (.extend s .double (.low w wide))

/-- The 64-bit value clamped to the width, at that width. -/
def saturate (wide : Expr) (w : Width) (s : Sign) : Expr :=
  let min := Expr.const .double (.ofInt 64 (s.limits w).1)
  let max := Expr.const .double (.ofInt 64 (s.limits w).2)
  let below := select .double (.compare .sgt .double wide max) max wide
  .low w (select .double (.compare .slt .double wide min) min below)

/-- Lane `i` of a packed word. -/
def lane (e : Expr) (l : Lane) (i : Nat) : Expr :=
  if l.width = e.width then e
  else if i * l.bits = 0 then .low l.width e
  else .low l.width (.lsr .word e (.const .word (.ofNat 64 (i * l.bits))))

/-- Lane `i` at its place in a word. -/
def placed (l : Lane) (i : Nat) (part : Expr) : Expr :=
  if i * l.bits = 0 then part.resize .word
  else .shl .word (part.resize .word) (.const .word (.ofNat 64 (i * l.bits)))

/-- Lanes put together to a word, lowest first. -/
def pack (l : Lane) (parts : List Expr) : Expr :=
  match parts.mapIdx (placed l) with
  | [] => .const .word 0
  | first :: rest => rest.foldl (.or .word) first

/-- 1 if one of the 0/1 bytes is 1. -/
def any : List Expr → Expr
  | [] => .const .byte 0
  | first :: rest => rest.foldl (.or .byte) first

/-- The upper word of a 64-bit value. -/
def highWord (e : Expr) : Expr := .low .word (.lsr .double e (.const .double 32))

/-- Two words as one 64-bit value. -/
def pair (hi lo : Expr) : Expr :=
  .or .double (.shl .double (.zext .double hi) (.const .double 32)) (.zext .double lo)

/-- The register with bit 0 cleared, as a jump target. -/
def aligned (r : Register) : Expr := .and .word (.reg r) (.word (~~~1))

def combine (op : LogicOp) (w : Width) (a b : Expr) : Expr :=
  match op with
  | .and => .and w a b
  | .andn => .and w a (.not w b)
  | .nand => .not w (.and w a b)
  | .nor => .not w (.or w a b)
  | .or => .or w a b
  | .orn => .or w a (.not w b)
  | .xnor => .not w (.xor w a b)
  | .xor => .xor w a b

/-- A 0/1 byte folded into bit 0 of a word. -/
def fold (acc : Combine) (dst bit : Expr) : Expr :=
  match acc with
  | .and => .and .word dst (.or .word (.const .word 0xFFFFFFFE) (.zext .word bit))
  | .or => .or .word dst (.zext .word bit)
  | .xor => .xor .word dst (.zext .word bit)
  | .shift => .or .word (.shl .word dst (.const .word 1)) (.zext .word bit)

end Expr

def Condition.op : Condition → CmpOp
  | eq => .eq
  | ne => .ne
  | lt => .slt
  | ltU => .ult
  | ge => .sge
  | geU => .uge
  | gt => .sgt
  | le => .sle

end Tricore
