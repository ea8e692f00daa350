import Tricore.Ieee.Datum

/-!
# Floating-point arithmetic

Each operation gives the datum of a format nearest to the exact result. An operation without a
result, such as zero times infinity, gives NaN, and so does one with a NaN operand.
-/

namespace Tricore.Ieee

namespace Datum

def add (f : Precision) : Datum → Datum → Datum
  | nan, _ | _, nan => nan
  | inf s, inf t => if s = t then inf s else nan
  | inf s, finite _ _ _ => inf s
  | finite _ _ _, inf t => inf t
  | finite s m e, finite t n g =>
    round f (s && t) ((finite s m e).value + (finite t n g).value)

def sub (f : Precision) (x y : Datum) : Datum := add f x y.neg

def mul (f : Precision) : Datum → Datum → Datum
  | nan, _ | _, nan => nan
  | inf s, inf t => inf (s != t)
  | inf s, finite t n _ | finite t n _, inf s => if n = 0 then nan else inf (s != t)
  | finite s m e, finite t n g =>
    round f (s != t) ((finite s m e).value * (finite t n g).value)

def div (f : Precision) : Datum → Datum → Datum
  | nan, _ | _, nan => nan
  | inf _, inf _ => nan
  | inf s, finite t _ _ => inf (s != t)
  | finite s _ _, inf t => finite (s != t) 0 f.least
  | finite s m e, finite t n g =>
    if n = 0 then if m = 0 then nan else inf (s != t)
    else round f (s != t) ((finite s m e).value / (finite t n g).value)

/-- A rational that rounds as the square root of `m * 2 ^ e` does: the root with two spare bits, and
one bit more that tells whether a remainder is left. -/
def rootEstimate (f : Precision) (m : Nat) (e : Int) : Rat :=
  let shift := 2 * (f.digits + 2) + (e % 2).toNat
  let scaled := m <<< shift
  let root := scaled.sqrt
  let sticky := if root * root = scaled then 0 else 1
  ((2 * root + sticky : Nat) : Rat) * 2 ^ ((e - shift) / 2 - 1)

def sqrt (f : Precision) : Datum → Datum
  | nan => nan
  | inf s => if s then nan else inf false
  | finite s m e =>
    if m = 0 then finite s m e else if s then nan else round f false (rootEstimate f m e)

/-- `x * 2 ^ n`, rounded once. -/
def scale (f : Precision) (x : Datum) (n : Int) : Datum :=
  match x with
  | finite s m e => round f s ((finite s m e).value * 2 ^ n)
  | x => x

/-- An integer, rounded to the format. -/
def ofInt (f : Precision) (n : Int) : Datum := round f false n

/-- The number made whole by `whole` and clamped to a range; zero for a NaN. -/
def toInt (whole : Rat → Int) (lo hi : Int) : Datum → Int
  | nan => 0
  | inf negative => if negative then lo else hi
  | x => max lo (min hi (whole x.value))

/-- Is the nearest integer in the range? -/
def fits (lo hi : Int) : Datum → Bool
  | finite s m e =>
    let n := nearestEven (finite s m e).value
    decide (lo ≤ n) && decide (n ≤ hi)
  | _ => false

end Datum

end Tricore.Ieee
