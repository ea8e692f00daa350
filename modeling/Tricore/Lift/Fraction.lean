import Tricore.Lift.Multiply

/-!
# Products of fractions

Half-words and words as fractions: a product is shifted left by zero or one place, and the one
product that this would carry out of range, of two least fractions, is pinned to the greatest
fraction.
-/

namespace Tricore.Lift

/-- A half-word of a word. -/
def half (x : Expr) (upper : Bool) : Expr :=
  .low .half (if upper then .lsr .word x (.const .word 16) else x)

/-- Are both operands the least signed value of the width? -/
def bothLeast (w : Width) (least : Value) (x y : Expr) : Expr :=
  .and .byte (.compare .eq w x (.const w least)) (.compare .eq w y (.const w least))

/-- The product of two signed numbers, shifted left by `n`. -/
def shiftedProduct (x y : Expr) (n : Nat) : Expr :=
  .shl .double (.mul .double (.sext .double x) (.sext .double y)) (.const .double (.ofNat 64 n))

/-- The product of two half-word fractions. -/
def halfProduct (x y : Expr) (n : Nat) : Expr :=
  if n = 1 then
    .select .double (bothLeast .half 0x8000 x y) (.const .double 0x7FFFFFFF) (shiftedProduct x y n)
  else shiftedProduct x y n

/-- The product of two word fractions, all of it or its upper word. -/
def wordProduct (wide : Bool) (a b : Expr) (n : Nat) : Expr :=
  let shifted := shiftedProduct a b n
  let shifted := if wide then shifted else .asr .double shifted (.const .double 32)
  let greatest : Value := if wide then 0x7FFFFFFFFFFFFFFF else 0x7FFFFFFF
  if n = 1 then
    .select .double (bothLeast .word 0x80000000 a b) (.const .double greatest) shifted
  else shifted

def fractionProduct (src : FractionSource) (wide : Bool) (a b : Expr) (n : Nat) : Expr :=
  let mixed := fun upper =>
    let shifted := shiftedProduct a (half b upper) n
    if wide then shifted else Expr.asr .double shifted (.const .double 16)
  let halves := fun upper =>
    let product := halfProduct (half a upper) (half b upper) n
    if wide then Expr.shl .double product (.const .double 16) else product
  match src with
  | .words => wordProduct wide a b n
  | .lower => mixed false
  | .upper => mixed true
  | .lowers => halves false
  | .uppers => halves true

/-- Half a unit of the upper half-word, added before rounding. -/
def rounding (round : Bool) (e : Expr) : Expr :=
  if round then .add .double e (.const .double 0x8000) else e

/-- The upper half-word, as it stands in a word. -/
def upperHalf (e : Expr) : Expr := .and .word e (.const .word 0xFFFF0000)

/-- Low word of an exact sum, clamped if asked. -/
def fit (sat : Bool) (sum : Expr) : Expr :=
  if sat then sum.saturate .word .signed else .low .word sum

/-- The merged products of a packed multiply: their sum or difference times 2^16. -/
def setMerged (dst : Register) (acc : Option Expr) (hi lo : Accumulate) (sat : Bool)
    (p1 p0 : Expr) : Emit Unit := do
  let op : BinOp := if hi = lo ∨ hi = .none then .add else .sub
  let merged ← temp (.shl .double (.binary op .double p1 p0) (.const .double 16))
  match acc with
  | none => setProduct dst merged
  | some acc => setAccumulated dst hi sat acc merged

/-- The two accumulator words of a packed multiply, upper one first. -/
def accumulatorWords (shape : ProductShape) : Option Expr → Expr × Expr
  | none => (.const .double 0, .const .double 0)
  | some acc =>
    match shape with
    | .rounded =>
      (.sext .double (upperHalf acc), .sext .double (.shl .word acc (.const .word 16)))
    | _ => (.sext .double acc.highWord, .sext .double (.low .word acc))

/-- Both products of a packed multiply, side by side. -/
def setSeparate (dst : Register) (acc : Option Expr) (hi lo : Accumulate) (shape : ProductShape)
    (sat : Bool) (p1 p0 : Expr) : Emit Unit := do
  let rounded : Bool := shape ≠ .pair
  let (acc1, acc0) := accumulatorWords shape acc
  let w1 ← temp (rounding rounded (accumulated hi acc1 p1))
  let w0 ← temp (rounding rounded (accumulated lo acc0 p0))
  status (.or .byte (w1.overflow .word .signed) (w0.overflow .word .signed))
    (.or .byte (Expr.low .word w1).advanced (Expr.low .word w0).advanced)
  set dst (
    if rounded then .or .word (upperHalf (fit sat w1)) (.lsr .word (fit sat w0) (.const .word 16))
    else .pair (fit sat w1) (fit sat w0))

namespace Plan

/-- Two products, one per half of the first source. -/
def halfMultiply (halves : HalfPair) (hi lo : Accumulate) (shape : ProductShape) (sat : Bool)
    (s : Source) : Plan := do
  let dst ← s.reg 0
  let acc? ← (if hi = .none then pure none else some <$> s.value 1 : Read (Option Expr))
  let first := if hi = .none then 1 else 2
  let a ← s.value first
  let b ← s.value (first + 1)
  let n ← s.count (first + 2)
  emitting do
    let acc? ← (match acc? with
      | none => pure none
      | some acc => some <$> temp acc : Emit (Option Expr))
    let a ← temp a
    let b ← temp b
    let p1 ← temp (halfProduct (half a true) (half b halves.upper) n)
    let p0 ← temp (halfProduct (half a false) (half b halves.lower) n)
    match shape with
    | .merged => setMerged dst acc? hi lo sat p1 p0
    | _ => setSeparate dst acc? hi lo shape sat p1 p0

def fractionMultiply (src : FractionSource) (wide : Bool) (acc : Accumulate) (round sat : Bool)
    (s : Source) : Plan := do
  let dst ← s.reg 0
  let acc? ← (if acc = .none then pure none else some <$> s.value 1 : Read (Option Expr))
  let first := if acc = .none then 1 else 2
  let a ← s.value first
  let b ← s.value (first + 1)
  let n ← s.count (first + 2)
  emitting do
    let a ← temp a
    let b ← temp b
    let product ← temp (fractionProduct src wide a b n)
    if wide then
      match acc? with
      | none => setProduct dst product
      | some value => setAccumulated dst acc sat (← temp value) product
    else
      let start :=
        match acc? with
        | none => .const .double 0
        | some value => .sext .double value
      let result ← temp (rounding round (accumulated acc start product))
      status (result.overflow .word .signed) (Expr.low .word result).advanced
      set dst (if round then upperHalf (fit sat result) else fit sat result)

end Plan

end Tricore.Lift
