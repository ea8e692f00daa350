/-!
# Typed numbers

A number is typed in decimal, or in hexadecimal after `0x` or `0X`, with an optional `+` before the
digits. Digits are read from left to right, and of several faults the first one counts.
-/

namespace Tricore.Text

/-- Why a text is not a number of the range asked for. -/
inductive NumeralError where
  | empty
  | invalidDigit
  | tooLarge
  deriving DecidableEq, Repr

def NumeralError.message : NumeralError → String
  | empty => "cannot parse integer from empty string"
  | invalidDigit => "invalid digit found in string"
  | tooLarge => "number too large to fit in target type"

def digitValue? (radix : Nat) (c : Char) : Option Nat :=
  let value :=
    if '0' ≤ c ∧ c ≤ '9' then some (c.toNat - '0'.toNat)
    else if 'a' ≤ c ∧ c ≤ 'z' then some (c.toNat - 'a'.toNat + 10)
    else if 'A' ≤ c ∧ c ≤ 'Z' then some (c.toNat - 'A'.toNat + 10)
    else none
  value.filter (· < radix)

/-- Digits read one after the other; a number at or past `limit` is too large from the digit that
takes it there. -/
def readDigits (radix limit : Nat) : List Char → Nat → Except NumeralError Nat
  | [], n => .ok n
  | c :: rest, n =>
    match digitValue? radix c with
    | none => .error .invalidDigit
    | some d =>
      let n := n * radix + d
      if n < limit then readDigits radix limit rest n else .error .tooLarge

/-- A number below `limit` in the given radix. A sign alone is an invalid digit. -/
def readNumber (radix limit : Nat) (text : List Char) : Except NumeralError Nat :=
  match text with
  | [] => .error .empty
  | ['+'] => .error .invalidDigit
  | ['-'] => .error .invalidDigit
  | '+' :: digits => readDigits radix limit digits 0
  | digits => readDigits radix limit digits 0

def readDecimal (limit : Nat) (text : String) : Except NumeralError Nat :=
  readNumber 10 limit text.toList

/-- A 32-bit number, hexadecimal after `0x` or `0X` and decimal otherwise. -/
def readWord (text : List Char) : Except NumeralError (BitVec 32) :=
  let number :=
    match text with
    | '0' :: 'x' :: digits => readNumber 16 (1 <<< 32) digits
    | '0' :: 'X' :: digits => readNumber 16 (1 <<< 32) digits
    | digits => readNumber 10 (1 <<< 32) digits
  number.map (BitVec.ofNat 32)

end Tricore.Text
