import Tricore.Lift.Shift

/-!
# Packed arithmetic

An operation on each lane of two words. Operations that can overflow compute each lane at 64 bits
and report the union of the lanes' overflows; the others leave the status alone.
-/

namespace Tricore.Lift

/-- The value of one lane, and its overflow and advanced overflow if it can have any. -/
structure LaneResult where
  value : Expr
  status? : Option (Expr × Expr)

/-- The absolute value of a 64-bit value. -/
def magnitude (x : Expr) : Expr :=
  .select .double (.compare .slt .double x (.const .double 0)) (.neg .double x) x

/-- Is `a` less than `b`? -/
def less (s : Sign) (w : Width) (a b : Expr) : Expr :=
  .compare (match s with | .signed => .slt | .unsigned => .ult) w a b

/-- All ones if the test holds, else zero. -/
def allOnes (w : Width) (test : Expr) : Expr := .neg w (.zext w test)

/-- A lane whose exact value is `wide`, wrapped or clamped. -/
def exactLane (w : Width) (s : Sign) (sat : Bool) (wide : Expr) : Emit LaneResult := do
  let wide ← temp wide
  let raw := Expr.low w wide
  return {
    value := if sat then wide.saturate w s else raw
    status? := some (wide.overflow w s, raw.advanced) }

/-- One lane of a packed operation. -/
def laneResult (op : LaneOp) (w : Width) (a b : Expr) : Emit LaneResult :=
  let plain := fun value => pure { value, status? := none }
  let difference := Expr.sub .double (.sext .double a) (.sext .double b)
  match op with
  | .add => exactLane w .signed false (.add .double (.sext .double a) (.sext .double b))
  | .addSat s => exactLane w s true (.add .double (.extend s .double a) (.extend s .double b))
  | .sub => exactLane w .signed false difference
  | .subSat s => exactLane w s true (.sub .double (.extend s .double a) (.extend s .double b))
  | .abs => exactLane w .signed false (magnitude (.sext .double a))
  | .absSat => exactLane w .signed true (magnitude (.sext .double a))
  | .absDiff => exactLane w .signed false (magnitude difference)
  | .absDiffSat => exactLane w .signed true (magnitude difference)
  | .min s => plain (.select w (less s w a b) a b)
  | .max s => plain (.select w (less s w a b) b a)
  | .eq => plain (allOnes w (.compare .eq w a b))
  | .lt s => plain (allOnes w (less s w a b))
  | .shift | .shiftArithmetic => plain a

namespace Plan

def lanes (op : LaneOp) (l : Lane) (dst : Register) (a b : Expr) : Emit Unit := do
  let a ← temp a
  let b ← temp b
  let parts ← (List.range l.count).mapM fun i => laneResult op l.width (a.lane l i) (b.lane l i)
  let result ← temp (.pack l (parts.map (·.value)))
  match parts.filterMap (·.status?) with
  | [] => pure ()
  | flags => status (.any (flags.map (·.1))) (.any (flags.map (·.2)))
  set dst result

def packed (op : LaneOp) (l : Lane) (s : Source) : Plan := do
  match op with
  | .shift => halfShift .lsr s
  | .shiftArithmetic => halfShift .asr s
  | .abs | .absSat =>
    let dst ← s.reg 0
    let a ← s.value 1
    emitting <| lanes op l dst a (.const .word 0)
  | _ =>
    let (dst, a, b) ← s.binary
    emitting <| lanes op l dst a b

end Plan

end Tricore.Lift
