import Tricore.Lift.Operands

/-!
# Floating point

Values travel as the bits of single-precision floats. The exception flags are asked from the
operation and its operands before the result is written.
-/

namespace Tricore.Lift

/-- Write each exception flag of the operation, then the summary flag as their union. -/
def floatFlags (flags : List Flag) (op : FloatCheck) (args : List Expr) : Emit Unit := do
  emitAll (flags.map fun f => .setFlag f (.floatStatus f op args))
  setFlag .fs (.any (flags.map .flag))

/-- The exceptions of sums, differences and products. -/
def arithmeticFlags : List Flag := [.fi, .fv, .fu, .fx]

/-- 1 if the float is denormal: a zero exponent with a fraction. -/
def denormal (x : Expr) : Expr :=
  .and .byte (.compare .eq .word (.and .word x (.word 0x7F800000)) (.const .word 0))
    (.compare .ne .word (.and .word x (.word 0x007FFFFF)) (.const .word 0))

/-- The result of a conversion with the operation, operand and flags of its status. -/
structure Conversion where
  value : Expr
  check : FloatCheck
  arg : Expr
  flags : List Flag

/-- Convert `a`; `n` is the scale of a fraction. -/
def conversion (c : FloatConversion) (a n : Expr) : Conversion :=
  let scaled := Expr.binary .fscale .word a (.add .word n (.word 31))
  let toInt := fun op check arg =>
    Conversion.mk (.unary op .word arg) check arg [.fi, .fx]
  let ofInt := fun op check => Conversion.mk (.unary op .word a) check a [.fx]
  match c with
  | .toInt => toInt .floatToInt .toInt a
  | .toIntTrunc => toInt .floatToIntTrunc .toInt a
  | .toUInt => toInt .floatToUInt .toUInt a
  | .toUIntTrunc => toInt .floatToUIntTrunc .toUInt a
  | .ofInt => ofInt .intToFloat .ofInt
  | .ofUInt => ofInt .uintToFloat .ofUInt
  | .toFraction => toInt .floatToInt .toInt scaled
  | .toFractionTrunc => toInt .floatToIntTrunc .toInt scaled
  | .ofFraction =>
    ⟨.binary .fscale .word (.unary .intToFloat .word a) (.sub .word n (.const .word 31)),
      .ofInt, a, [.fx]⟩
  | .rsqrtSeed => ⟨.unary .floatRsqrt .word a, .rsqrt, a, [.fi]⟩

namespace Plan

def float (op : FloatOp) (s : Source) : Plan := do
  let dst ← s.reg 0
  let a ← s.value 1
  let b ← s.value 2
  let (bin, check, flags) : BinOp × FloatCheck × List Flag :=
    match op with
    | .add => (.fadd, .add, arithmeticFlags)
    | .sub => (.fsub, .sub, arithmeticFlags)
    | .mul => (.fmul, .mul, arithmeticFlags)
    | .div => (.fdiv, .div, [.fi, .fv, .fz, .fu, .fx])
  emitting do
    let a ← temp a
    let b ← temp b
    floatFlags flags check [a, b]
    set dst (.binary bin .word a b)

/-- The product is rounded before the sum is. -/
def floatMultiplyAdd (subtract : Bool) (s : Source) : Plan := do
  let dst ← s.reg 0
  let acc ← s.value 1
  let a ← s.value 2
  let b ← s.value 3
  emitting do
    let acc ← temp acc
    let a ← temp a
    let b ← temp b
    floatFlags arithmeticFlags (if subtract then .mulSub else .mulAdd) [acc, a, b]
    set dst (.binary (if subtract then .fsub else .fadd) .word acc (.binary .fmul .word a b))

/-- Bits for less, equal, greater, unordered, and for each denormal operand, from bit 0 up. -/
def floatCompare (s : Source) : Plan := do
  let dst ← s.reg 0
  let a ← s.value 1
  let b ← s.value 2
  emitting do
    let a ← temp a
    let b ← temp b
    let test := fun op => Expr.compare op .word a b
    let bits := [test .flt, test .feq, test .fgt, test .funord, denormal a, denormal b]
    let placed := bits.mapIdx fun i e =>
      Expr.shl .word (.zext .word e) (.const .word (.ofNat 64 i))
    floatFlags [.fi] .compare [a, b]
    set dst (match placed with
      | [] => .const .word 0
      | first :: rest => rest.foldl (.or .word) first)

def floatConvert (c : FloatConversion) (s : Source) : Plan := do
  let dst ← s.reg 0
  let a ← s.value 1
  let n? ← (if s.arity = 3 then some <$> s.value 2 else pure none : Read (Option Expr))
  emitting do
    let a ← temp a
    let n ← (match n? with
      | some n => temp n
      | none => pure (.const .word 0) : Emit Expr)
    let conv := conversion c a n
    floatFlags conv.flags conv.check [conv.arg]
    set dst conv.value

/-- Bits 15:8 of the source select the flags that take the values in bits 7:0. -/
def updateFlags (s : Source) : Plan := do
  let src ← s.value 0
  emitting do
    let src ← temp src
    emitAll (Flag.floating.map fun f =>
      let n := f.bit - 24
      .setFlag f (.select .byte (src.bit (n + 8)) (src.bit n) (.flag f)))

end Plan

end Tricore.Lift
