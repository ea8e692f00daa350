/-!
# Words and widths

Addresses and registers are 32-bit words. Values of the effect language are bit patterns of one,
two, four or eight bytes (`Width`), carried in 64 bits: `Width.cut` keeps the low bytes of such a
pattern and `Width.signed` reads them as a two's complement number.
-/

namespace Tricore

abbrev Byte := BitVec 8

abbrev Word := BitVec 32

abbrev Address := BitVec 32

/-- The container every value of the effect language travels in. -/
abbrev Value := BitVec 64

inductive Width where
  | byte
  | half
  | word
  | double
  deriving DecidableEq, Repr, Inhabited

namespace Width

def bytes : Width → Nat
  | byte => 1
  | half => 2
  | word => 4
  | double => 8

def bits (w : Width) : Nat := 8 * w.bytes

def ofBytes? : Nat → Option Width
  | 1 => some byte
  | 2 => some half
  | 4 => some word
  | 8 => some double
  | _ => none

/-- The low bytes of a value, with zeros above them. -/
def cut (w : Width) (v : Value) : Value := (v.setWidth w.bits).setWidth 64

/-- The low bytes of a value as a two's complement number. -/
def signed (w : Width) (v : Value) : Int := (v.setWidth w.bits).toInt

/-- The low bytes of a value, with copies of their top bit above them. -/
def spread (w : Width) (v : Value) : Value := (v.setWidth w.bits).signExtend 64

end Width

/-- How the top bit of a narrow value is read. -/
inductive Sign where
  | signed
  | unsigned
  deriving DecidableEq, Repr

end Tricore
