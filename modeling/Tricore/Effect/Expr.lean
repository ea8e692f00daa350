import Tricore.Flag
import Tricore.Register
import Tricore.Text.Hex

/-!
# Effect expressions

An expression denotes a bit pattern; single-precision floats travel as their bits. Each node names
the width it works at, and `Expr.width` is the width of its result. Constants keep all 64 bits they
were given and are cut when they are read.
-/

namespace Tricore

inductive UnOp where
  | neg
  | not
  /-- Zeros above the highest one. -/
  | clz
  | intToFloat
  | uintToFloat
  /-- To the nearest integer, ties to even, saturating. -/
  | floatToInt
  | floatToIntTrunc
  | floatToUInt
  | floatToUIntTrunc
  /-- One over the square root. -/
  | floatRsqrt
  deriving DecidableEq, Repr, Inhabited

inductive BinOp where
  | add
  | sub
  | mul
  | divS
  | divU
  | modS
  | modU
  | and
  | or
  | xor
  | shl
  | lsr
  | asr
  | fadd
  | fsub
  | fmul
  | fdiv
  /-- The left operand times two to the power of the right one, a signed integer. -/
  | fscale
  deriving DecidableEq, Repr, Inhabited

inductive CmpOp where
  | eq
  | ne
  | slt
  | sle
  | sgt
  | sge
  | ult
  | ule
  | ugt
  | uge
  | flt
  | feq
  | fgt
  /-- Is an operand not a number? -/
  | funord
  deriving DecidableEq, Repr, Inhabited

/-- The float operations whose exceptions can be asked for. -/
inductive FloatCheck where
  | add
  | sub
  | mul
  | div
  /-- The first argument plus the product of the others. -/
  | mulAdd
  /-- The first argument minus the product of the others. -/
  | mulSub
  | compare
  | toInt
  | toUInt
  | ofInt
  | ofUInt
  | rsqrt
  deriving DecidableEq, Repr, Inhabited

inductive Expr where
  | const (w : Width) (value : Value)
  | reg (r : Register)
  /-- A status flag as 0 or 1. -/
  | flag (f : Flag)
  | load (w : Width) (addr : Expr)
  | unary (op : UnOp) (w : Width) (arg : Expr)
  | binary (op : BinOp) (w : Width) (lhs rhs : Expr)
  | extend (s : Sign) (w : Width) (arg : Expr)
  /-- The low bytes. -/
  | low (w : Width) (arg : Expr)
  /-- 0 or 1. -/
  | compare (op : CmpOp) (w : Width) (lhs rhs : Expr)
  /-- 1 if the operation raises the exception that the flag stands for, else 0. -/
  | floatStatus (f : Flag) (op : FloatCheck) (args : List Expr)
  deriving Repr, Inhabited

namespace UnOp

def all : List UnOp :=
  [neg, not, clz, intToFloat, uintToFloat, floatToInt, floatToIntTrunc, floatToUInt,
    floatToUIntTrunc, floatRsqrt]

def name : UnOp → String
  | neg => "neg"
  | not => "not"
  | clz => "clz"
  | intToFloat => "itof"
  | uintToFloat => "utof"
  | floatToInt => "ftoi"
  | floatToIntTrunc => "ftoiz"
  | floatToUInt => "ftou"
  | floatToUIntTrunc => "ftouz"
  | floatRsqrt => "frsqrt"

/-- The name in exported data. -/
def tag : UnOp → String
  | neg => "Neg"
  | not => "Not"
  | clz => "Clz"
  | intToFloat => "IntToFloat"
  | uintToFloat => "UIntToFloat"
  | floatToInt => "FloatToInt"
  | floatToIntTrunc => "FloatToIntTrunc"
  | floatToUInt => "FloatToUInt"
  | floatToUIntTrunc => "FloatToUIntTrunc"
  | floatRsqrt => "FloatRsqrt"

def ofTag? (text : String) : Option UnOp := all.find? (·.tag == text)

end UnOp

namespace BinOp

def all : List BinOp :=
  [add, sub, mul, divS, divU, modS, modU, and, or, xor, shl, lsr, asr, fadd, fsub, fmul, fdiv,
    fscale]

def name : BinOp → String
  | add => "add"
  | sub => "sub"
  | mul => "mul"
  | divS => "divs"
  | divU => "divu"
  | modS => "mods"
  | modU => "modu"
  | and => "and"
  | or => "or"
  | xor => "xor"
  | shl => "lsl"
  | lsr => "lsr"
  | asr => "asr"
  | fadd => "fadd"
  | fsub => "fsub"
  | fmul => "fmul"
  | fdiv => "fdiv"
  | fscale => "fscale"

/-- The name in exported data. -/
def tag : BinOp → String
  | add => "Add"
  | sub => "Sub"
  | mul => "Mul"
  | divS => "DivS"
  | divU => "DivU"
  | modS => "ModS"
  | modU => "ModU"
  | and => "And"
  | or => "Or"
  | xor => "Xor"
  | shl => "Shl"
  | lsr => "Lsr"
  | asr => "Asr"
  | fadd => "FAdd"
  | fsub => "FSub"
  | fmul => "FMul"
  | fdiv => "FDiv"
  | fscale => "FScale"

def ofTag? (text : String) : Option BinOp := all.find? (·.tag == text)

end BinOp

namespace CmpOp

def all : List CmpOp :=
  [eq, ne, slt, sle, sgt, sge, ult, ule, ugt, uge, flt, feq, fgt, funord]

def name : CmpOp → String
  | eq => "eq"
  | ne => "ne"
  | slt => "slt"
  | sle => "sle"
  | sgt => "sgt"
  | sge => "sge"
  | ult => "ult"
  | ule => "ule"
  | ugt => "ugt"
  | uge => "uge"
  | flt => "flt"
  | feq => "feq"
  | fgt => "fgt"
  | funord => "funord"

/-- The name in exported data. -/
def tag : CmpOp → String
  | flt => "FLt"
  | feq => "FEq"
  | fgt => "FGt"
  | funord => "FUnord"
  | op => op.name.capitalize

def ofTag? (text : String) : Option CmpOp := all.find? (·.tag == text)

end CmpOp

namespace FloatCheck

def all : List FloatCheck :=
  [add, sub, mul, div, mulAdd, mulSub, compare, toInt, toUInt, ofInt, ofUInt, rsqrt]

/-- The name in printed effects and in exported data. -/
def tag : FloatCheck → String
  | add => "Add"
  | sub => "Sub"
  | mul => "Mul"
  | div => "Div"
  | mulAdd => "MulAdd"
  | mulSub => "MulSub"
  | compare => "Compare"
  | toInt => "ToInt"
  | toUInt => "ToUInt"
  | ofInt => "FromInt"
  | ofUInt => "FromUInt"
  | rsqrt => "Rsqrt"

def ofTag? (text : String) : Option FloatCheck := all.find? (·.tag == text)

end FloatCheck

namespace Expr

/-- A 32-bit constant. -/
def word (value : Word) : Expr := .const .word (value.setWidth 64)

def add (w : Width) (l r : Expr) : Expr := .binary .add w l r
def sub (w : Width) (l r : Expr) : Expr := .binary .sub w l r
def mul (w : Width) (l r : Expr) : Expr := .binary .mul w l r
def and (w : Width) (l r : Expr) : Expr := .binary .and w l r
def or (w : Width) (l r : Expr) : Expr := .binary .or w l r
def xor (w : Width) (l r : Expr) : Expr := .binary .xor w l r
def shl (w : Width) (l r : Expr) : Expr := .binary .shl w l r
def lsr (w : Width) (l r : Expr) : Expr := .binary .lsr w l r
def asr (w : Width) (l r : Expr) : Expr := .binary .asr w l r
def not (w : Width) (e : Expr) : Expr := .unary .not w e
def neg (w : Width) (e : Expr) : Expr := .unary .neg w e
def sext (w : Width) (e : Expr) : Expr := .extend .signed w e
def zext (w : Width) (e : Expr) : Expr := .extend .unsigned w e

/-- Width of the result. -/
def width : Expr → Width
  | const w _ | load w _ | unary _ w _ | binary _ w _ _ | extend _ w _ | low w _ => w
  | reg r => r.width
  | flag _ | compare _ _ _ _ | floatStatus _ _ _ => .byte

mutual

def print : Expr → String
  | const _ value => Text.hex value.toNat
  | reg r => r.name
  | flag f => "flag:" ++ f.name
  | load w addr => s!"[{print addr}].{w.bytes}"
  | unary op w arg => s!"{op.name}.{w.bytes}({print arg})"
  | binary op w lhs rhs => s!"{op.name}.{w.bytes}({print lhs}, {print rhs})"
  | extend .signed w arg => s!"sx.{w.bytes}({print arg})"
  | extend .unsigned w arg => s!"zx.{w.bytes}({print arg})"
  | low w arg => s!"low.{w.bytes}({print arg})"
  | compare op w lhs rhs => s!"cmp_{op.name}.{w.bytes}({print lhs}, {print rhs})"
  | floatStatus f op args => s!"fpstatus_{f.name}({op.tag}{printRest args})"

/-- Arguments after the first item of a list, each with a comma before it. -/
def printRest : List Expr → String
  | [] => ""
  | e :: es => ", " ++ print e ++ printRest es

end

end Expr

end Tricore
