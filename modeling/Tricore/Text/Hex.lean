/-!
# Hexadecimal text

Digits are lower case. `hexPadded` fills up with zeros on the left and never cuts a digit off.
-/

namespace Tricore.Text

/-- `text` with zeros in front, up to `width` characters. -/
def zeroFill (width : Nat) (text : String) : String :=
  String.ofList (List.replicate (width - text.length) '0') ++ text

def hexDigits (n : Nat) : String := String.ofList (Nat.toDigits 16 n)

def hexPadded (width n : Nat) : String := zeroFill width (hexDigits n)

/-- `0x` and the digits of `n`, without leading zeros. -/
def hex (n : Nat) : String := "0x" ++ hexDigits n

/-- An address: `0x` and eight digits. -/
def hexAddress (a : BitVec 32) : String := "0x" ++ hexPadded 8 a.toNat

/-- An opcode byte: `0x` and two digits. -/
def hexOpcode (b : BitVec 8) : String := "0x" ++ hexPadded 2 b.toNat

/-- A list of bytes, two digits each, with a blank after each. -/
def hexBytes (bytes : List (BitVec 8)) : String :=
  bytes.foldl (fun text b => text ++ hexPadded 2 b.toNat ++ " ") ""

/-- `text` with blanks after it, up to `width` characters. -/
def padRight (width : Nat) (text : String) : String :=
  text ++ String.ofList (List.replicate (width - text.length) ' ')

end Tricore.Text
