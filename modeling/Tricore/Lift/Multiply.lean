import Tricore.Lift.Operands

/-!
# Products

Products are exact at 64 bits. A word-sized result is a sum that fits 64 bits, so its overflow is
read off the sum; for a 64-bit accumulator overflow follows from the signs (`signOverflow`).
-/

namespace Tricore.Lift

/-- The accumulator, at 64 bits, with the product added or subtracted. -/
def accumulated (op : Accumulate) (acc product : Expr) : Expr :=
  match op with
  | .none => product
  | .add => .add .double acc product
  | .sub => .sub .double acc product

/-- Did `result`, the sum or difference of `acc` and `product`, leave the signed 64-bit range? -/
def signOverflow (subtract : Bool) (acc product result : Expr) : Expr :=
  let signs := Expr.xor .double acc product
  let agree := if subtract then signs else .not .double signs
  Expr.bit (.and .double agree (.xor .double acc result)) 63

/-- The 64-bit bound on the accumulator's side if `v` is 1, else the result. -/
def clampedToward (v acc result : Expr) : Expr :=
  let bound := Expr.select .double (.compare .slt .double acc (.const .double 0))
    (.const .double 0x8000000000000000) (.const .double 0x7FFFFFFFFFFFFFFF)
  .select .double v bound result

/-- Write a word that is the low part of an exact 64-bit sum. -/
def setWord (dst : Register) (s : Sign) (sat : Bool) (sum : Expr) : Emit Unit := do
  status (sum.overflow .word s) (Expr.low .word sum).advanced
  set dst (if sat then sum.saturate .word s else .low .word sum)

/-- Write a 64-bit product, which never overflows. -/
def setProduct (dst : Register) (product : Expr) : Emit Unit := do
  status (.const .byte 0) product.advanced
  set dst product

/-- Write a signed 64-bit accumulator with a product added or subtracted. -/
def setAccumulated (dst : Register) (op : Accumulate) (sat : Bool) (acc product : Expr) :
    Emit Unit := do
  let result ← temp (accumulated op acc product)
  let v := Expr.low .byte (← temp (signOverflow (op = .sub) acc product result))
  status v result.advanced
  set dst (if sat then clampedToward v acc result else result)

/-- Write an unsigned 64-bit accumulator with a product added or subtracted. -/
def setAccumulatedU (dst : Register) (subtract sat : Bool) (acc product : Expr) : Emit Unit := do
  let result ← temp (accumulated (if subtract then .sub else .add) acc product)
  let wrapped :=
    if subtract then Expr.compare .ult .double acc product
    else Expr.compare .ult .double result acc
  let v := Expr.low .byte (← temp wrapped)
  status v result.advanced
  let bound := Expr.const .double (if subtract then 0 else .allOnes 64)
  set dst (if sat then .select .double v bound result else result)

namespace Plan

def multiply (sign : Sign) (wide sat : Bool) (s : Source) : Plan := do
  let (dst, a, b) ← s.binary
  emitting do
    let product ← temp (.mul .double (.extend sign .double a) (.extend sign .double b))
    if wide then setProduct dst product else setWord dst sign sat product

/-- An unsigned product of 2^32 or more saturates whatever the accumulator holds, so it is cut to
2^32 to keep the word-sized sum in signed 64-bit range. -/
def multiplyAdd (subtract : Bool) (sign : Sign) (wide sat : Bool) (s : Source) : Plan := do
  let dst ← s.reg 0
  let acc ← s.value 1
  let a ← s.value 2
  let b ← s.value 3
  let op : Accumulate := if subtract then .sub else .add
  emitting do
    let product ← temp (.mul .double (.extend sign .double a) (.extend sign .double b))
    if wide then
      let acc ← temp acc
      match sign with
      | .signed => setAccumulated dst op sat acc product
      | .unsigned => setAccumulatedU dst subtract sat acc product
    else
      let product :=
        match sign with
        | .signed => product
        | .unsigned =>
          .select .double (.compare .ugt .double product (.const .double 0xFFFFFFFF))
            (.const .double 0x100000000) product
      setWord dst sign sat (← temp (accumulated op (.extend sign .double acc) product))

end Plan

end Tricore.Lift
