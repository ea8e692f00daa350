/-!
# Binary floating-point data

A `Datum` is what a float stands for: not a number, an infinity, or a sign, a significand and an
exponent of two. Arithmetic is exact on rationals and then rounded once, to the nearest datum of a
`Precision`, ties to the even significand (`round`). NaNs are not told apart; the bits written for
one are those of the quiet NaN without sign and payload.
-/

namespace Tricore.Ieee

/-- A binary format: the bits of a significand, and the exponents of the smallest and of the largest
unit in the last place. -/
structure Precision where
  digits : Nat
  least : Int
  greatest : Int
  deriving DecidableEq, Repr

def binary32 : Precision := ⟨24, -149, 104⟩

def binary64 : Precision := ⟨53, -1074, 971⟩

inductive Datum where
  | nan
  | inf (negative : Bool)
  /-- `significand * 2 ^ exponent` with a sign, which zeros have too. -/
  | finite (negative : Bool) (significand : Nat) (exponent : Int)
  deriving DecidableEq, Repr, Inhabited

namespace Datum

def isNan : Datum → Bool
  | nan => true
  | _ => false

def isFinite : Datum → Bool
  | finite _ _ _ => true
  | _ => false

def isInfinite : Datum → Bool
  | inf _ => true
  | _ => false

/-- The number, zero where there is none. -/
def value : Datum → Rat
  | finite negative m e => (if negative then -(m : Rat) else m) * 2 ^ e
  | _ => 0

def neg : Datum → Datum
  | nan => nan
  | inf s => inf !s
  | finite s m e => finite (!s) m e

def less : Datum → Datum → Bool
  | nan, _ | _, nan => false
  | inf s, inf t => s && !t
  | inf s, finite _ _ _ => s
  | finite _ _ _, inf t => !t
  | x, y => decide (x.value < y.value)

/-- Equality of numbers: zeros are equal whatever their signs. -/
def equal : Datum → Datum → Bool
  | inf s, inf t => s == t
  | finite s m e, finite t n f => decide ((finite s m e).value = (finite t n f).value)
  | _, _ => false

end Datum

/-- The greatest `e` with `2 ^ e ≤ q`, for a positive `q`. -/
def logarithm (q : Rat) : Int :=
  let e : Int := q.num.natAbs.log2 - q.den.log2
  if q < 2 ^ e then e - 1 else e

/-- The nearest integer, the even one of two. -/
def nearestEven (q : Rat) : Int :=
  let below := q.floor
  let rest := q - below
  if rest < 1 / 2 then below
  else if 1 / 2 < rest then below + 1
  else if below % 2 = 0 then below
  else below + 1

/-- The integer part. -/
def truncate (q : Rat) : Int := q.num.tdiv q.den

/-- The datum of the format nearest to `q`; a zero gets the given sign. -/
def round (f : Precision) (negativeZero : Bool) (q : Rat) : Datum :=
  if q = 0 then .finite negativeZero 0 f.least
  else
    let negative : Bool := decide (q < 0)
    let size := if negative then -q else q
    let unit := max (logarithm size - (f.digits - 1)) f.least
    let m := (nearestEven (size / 2 ^ unit)).toNat
    let (m, unit) := if m = 1 <<< f.digits then (1 <<< (f.digits - 1), unit + 1) else (m, unit)
    if f.greatest < unit then .inf negative else .finite negative m unit

/-! ## Bits of single precision -/

/-- The datum that 32 bits stand for. -/
def decode (bits : BitVec 32) : Datum :=
  let negative := bits.msb
  let exponent := (bits.extractLsb' 23 8).toNat
  let fraction := (bits.extractLsb' 0 23).toNat
  if exponent = 255 then if fraction = 0 then .inf negative else .nan
  else if exponent = 0 then .finite negative fraction (-149)
  else .finite negative (fraction + 0x800000) (exponent - 150)

/-- The bits of a datum of single precision. -/
def encode : Datum → BitVec 32
  | .nan => 0x7FC00000
  | .inf negative => BitVec.ofBool negative ++ (0xFF : BitVec 8) ++ (0 : BitVec 23)
  | .finite negative m e =>
    let exponent := if m < 0x800000 then 0 else (e + 150).toNat
    BitVec.ofBool negative ++ BitVec.ofNat 8 exponent ++ BitVec.ofNat 23 m

/-- A NaN whose highest fraction bit is clear. -/
def isSignaling (bits : BitVec 32) : Bool := (decode bits).isNan && !bits.getLsbD 22

end Tricore.Ieee
