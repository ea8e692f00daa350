import Tricore.Exec.Operators

/-!
# Floating-point exceptions

Which exceptions an operation raises on its operands. Sums, products and quotients are compared
with what double precision gives: a result that differs from that is inexact.
-/

namespace Tricore

open Ieee Datum

namespace FloatCheck

/-- The result of an arithmetic operation in a format. -/
def arithmetic? (f : Precision) (op : FloatCheck) (x y z : Datum) : Option Datum :=
  match op with
  | .add => some (Datum.add f x y)
  | .sub => some (Datum.sub f x y)
  | .mul => some (Datum.mul f x y)
  | .div => some (Datum.div f x y)
  | .mulAdd => some (Datum.add f x (Datum.mul f y z))
  | .mulSub => some (Datum.sub f x (Datum.mul f y z))
  | _ => none

/-- Not zero, and below the least normal number of single precision. -/
def isTiny (x : Datum) : Bool :=
  x.isFinite && x.value != 0 && decide (-(2 ^ (-126 : Int)) < x.value) &&
    decide (x.value < 2 ^ (-126 : Int))

def isZero (x : Datum) : Bool := x.isFinite && x.value == 0

/-- Does an arithmetic operation with this result in single and in double precision raise the
exception? -/
def arithmeticRaises (f : Flag) (op : FloatCheck) (args : List Word) (result exact : Datum) :
    Bool :=
  let data := args.map decode
  let x := data.getD 0 (decode 0)
  let y := data.getD 1 (decode 0)
  let divideByZero := op == .div && isZero y && x.isFinite && !isZero x
  let overflow := result.isInfinite && data.all isFinite && !divideByZero
  match f with
  | .fi => args.any isSignaling || (result.isNan && !data.any isNan)
  | .fz => divideByZero
  | .fv => overflow
  | .fu => isTiny result || (isZero result && exact.isFinite && !isZero exact)
  | .fx => overflow || (result.isFinite && exact.isFinite && result.value != exact.value)
  | _ => false

/-- Does the operation on these floats raise the exception? Missing operands are zero. -/
def raises (f : Flag) (op : FloatCheck) (args : List Word) : Bool :=
  let bits := args.getD 0 0
  let x := decode bits
  let y := decode (args.getD 1 0)
  let z := decode (args.getD 2 0)
  match op.arithmetic? binary32 x y z, op.arithmetic? binary64 x y z with
  | some result, some exact => arithmeticRaises f op args result exact
  | _, _ =>
    match op, f with
    | .compare, .fi => args.any fun b => (decode b).isNan
    | .toInt, .fi => !x.fits minInt32 maxInt32
    | .toUInt, .fi => !x.fits 0 maxUInt32
    | .toInt, .fx | .toUInt, .fx => x.isFinite && x.value.den != 1
    | .ofInt, .fx => (Datum.ofInt binary32 bits.toInt).value != bits.toInt
    | .ofUInt, .fx => (Datum.ofInt binary32 bits.toNat).value != bits.toNat
    | .rsqrt, .fi => args.any isSignaling || x.less (decode 0)
    | _, _ => false

end FloatCheck

end Tricore
