import Tricore.Effect.Expr
import Tricore.Ieee.Arithmetic

/-!
# Meaning of the operators

Each operator on 64-bit containers, before the result is cut to the width of its node. Division by
zero gives all ones and leaves the dividend as the remainder; a shift by the width or more leaves
nothing, or copies of the sign.
-/

namespace Tricore

/-- The float in the low word. -/
def floatOf (v : Value) : Ieee.Datum := Ieee.decode (v.setWidth 32)

/-- A single-precision float as a value. -/
def floatBits (x : Ieee.Datum) : Value := (Ieee.encode x).setWidth 64

/-- An integer as a 32-bit value. -/
def wordBits (n : Int) : Value := (BitVec.ofInt 32 n).setWidth 64

namespace Ieee

open Datum

def minInt32 : Int := -0x80000000
def maxInt32 : Int := 0x7FFFFFFF
def maxUInt32 : Int := 0xFFFFFFFF

/-- One over the square root, each step rounded. -/
def rsqrt (x : Datum) : Datum := div binary32 (ofInt binary32 1) (sqrt binary32 x)

end Ieee

open Ieee in
def UnOp.apply (op : UnOp) (w : Width) (v : Value) : Value :=
  match op with
  | .neg => -v
  | .not => ~~~v
  | .clz => (v.setWidth w.bits).clz.setWidth 64
  | .intToFloat => floatBits (.ofInt binary32 (v.setWidth 32).toInt)
  | .uintToFloat => floatBits (.ofInt binary32 (v.setWidth 32).toNat)
  | .floatToInt => wordBits ((floatOf v).toInt nearestEven minInt32 maxInt32)
  | .floatToIntTrunc => wordBits ((floatOf v).toInt truncate minInt32 maxInt32)
  | .floatToUInt => wordBits ((floatOf v).toInt nearestEven 0 maxUInt32)
  | .floatToUIntTrunc => wordBits ((floatOf v).toInt truncate 0 maxUInt32)
  | .floatRsqrt => floatBits (rsqrt (floatOf v))

/-- A signed quotient or remainder; minus one divides the least number around to itself. -/
def signedDivide (w : Width) (a b : Value) (op : Int → Int → Int) : Value :=
  .ofInt 64 (op (w.signed a) (w.signed b))

open Ieee in
def BinOp.apply (op : BinOp) (w : Width) (a b : Value) : Value :=
  match op with
  | .add => a + b
  | .sub => a - b
  | .mul => a * b
  | .divS => if w.signed b = 0 then .allOnes 64 else signedDivide w a b Int.tdiv
  | .modS => if w.signed b = 0 then a else signedDivide w a b Int.tmod
  | .divU => if w.cut b = 0 then .allOnes 64 else w.cut a / w.cut b
  | .modU => if w.cut b = 0 then a else w.cut a % w.cut b
  | .and => a &&& b
  | .or => a ||| b
  | .xor => a ^^^ b
  | .shl => if w.bits ≤ b.toNat then 0 else a <<< b.toNat
  | .lsr => if w.bits ≤ b.toNat then 0 else w.cut a >>> b.toNat
  | .asr => (w.spread a).sshiftRight (min b.toNat (w.bits - 1))
  | .fadd => floatBits (.add binary32 (floatOf a) (floatOf b))
  | .fsub => floatBits (.sub binary32 (floatOf a) (floatOf b))
  | .fmul => floatBits (.mul binary32 (floatOf a) (floatOf b))
  | .fdiv => floatBits (.div binary32 (floatOf a) (floatOf b))
  | .fscale =>
    floatBits (.scale binary32 (floatOf a) (max (-400) (min 400 (b.setWidth 32).toInt)))

/-- Compare two values that have been cut to the width. -/
def CmpOp.apply (op : CmpOp) (w : Width) (a b : Value) : Bool :=
  match op with
  | .eq => a == b
  | .ne => a != b
  | .slt => decide (w.signed a < w.signed b)
  | .sle => decide (w.signed a ≤ w.signed b)
  | .sgt => decide (w.signed b < w.signed a)
  | .sge => decide (w.signed b ≤ w.signed a)
  | .ult => decide (a < b)
  | .ule => decide (a ≤ b)
  | .ugt => decide (b < a)
  | .uge => decide (b ≤ a)
  | .flt => (floatOf a).less (floatOf b)
  | .feq => (floatOf a).equal (floatOf b)
  | .fgt => (floatOf b).less (floatOf a)
  | .funord => (floatOf a).isNan || (floatOf b).isNan

end Tricore
