import Tricore.Lift.Arithmetic

/-!
# Comparisons, logic and moves

None of these touches the status flags.
-/

namespace Tricore.Lift.Plan

/-- A comparison as 0 or 1, or folded into the destination. With two operands it is with zero. -/
def compare (c : Condition) (acc : Option Combine) (s : Source) : Plan := do
  let (dst, lhs, rhs) ←
    (match s.arity with
    | 3 => return (← s.reg 0, ← s.value 1, ← s.value 2)
    | 2 => return (← s.reg 0, ← s.value 1, .word 0)
    | n => s.bad _ n : Read (Register × Expr × Expr))
  let test := Expr.compare c.op .word lhs rhs
  emitting <| set dst (match acc with
    | none => .zext .word test
    | some acc => .fold acc (.reg dst) test)

def anyEqual (l : Lane) (s : Source) : Plan := do
  let (dst, a, b) ← s.binary
  emitting do
    let a ← temp a
    let b ← temp b
    let hits := (List.range l.count).map fun i =>
      Expr.compare .eq l.width (a.lane l i) (b.lane l i)
    set dst (.zext .word (.any hits))

def logic (op : LogicOp) (s : Source) : Plan := do
  let (dst, a, b) ← s.binary
  emitting <| set dst (.combine op .word a b)

def complement (s : Source) : Plan := do
  let (dst, src) ← s.unary
  emitting <| set dst (.not .word src)

/-- Leading ones, zeros or copies of the sign below it, of one lane. -/
def counted (kind : CountKind) (w : Width) (x : Expr) : Expr :=
  match kind with
  | .zeros => .unary .clz w x
  | .ones => .unary .clz w (.not w x)
  | .signs =>
    .sub w (.unary .clz w (.xor w x (.asr w x (.const w 1)))) (.const w 1)

def count (kind : CountKind) (l : Lane) (s : Source) : Plan := do
  let (dst, src) ← s.unary
  emitting do
    let src ← temp src
    set dst (.pack l ((List.range l.count).map fun i => counted kind l.width (src.lane l i)))

def select (negate : Bool) (s : Source) : Plan := do
  let dst ← s.reg 0
  let cond ← s.value 1
  let yes ← s.value 2
  let no ← s.value 3
  emitting <| set dst (.select .word (condition negate cond) yes no)

def condMove (negate : Bool) (s : Source) : Plan := do
  let dst ← s.reg 0
  let cond ← s.value 1
  let src ← s.value 2
  emitting <| set dst (.select .word (condition negate cond) src (.reg dst))

/-- A move to a pair extends the sign. -/
def move (s : Source) : Plan := do
  let dst ← s.reg 0
  let src ← s.value 1
  emitting <| set dst (if dst.width = .double then .sext .double src else src)

def movePair (s : Source) : Plan := do
  let dst ← s.reg 0
  let hi ← s.value 1
  let lo ← s.value 2
  emitting <| set dst (.pair hi lo)

end Tricore.Lift.Plan
