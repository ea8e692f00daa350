import Tricore.Width

/-!
# Status flags

The status bits of the program status word, PSW[31:26]. The floating-point flags share positions
with the integer flags (`fs` and `c` are the same bit); they are told apart because an instruction
declares the flags it writes (`FlagSet`) in terms of one or the other.
-/

namespace Tricore

inductive Flag where
  | c
  | v
  | sv
  | av
  | sav
  | fs
  | fi
  | fv
  | fz
  | fu
  | fx
  deriving DecidableEq, Repr, Inhabited

namespace Flag

/-- The integer flags, carry first. -/
def integer : List Flag := [c, v, sv, av, sav]

/-- The floating-point flags, summary first. -/
def floating : List Flag := [fs, fi, fv, fz, fu, fx]

def all : List Flag := integer ++ floating

/-- Position in the program status word. -/
def bit : Flag → Nat
  | c | fs => 31
  | v | fi => 30
  | sv | fv => 29
  | av | fz => 28
  | sav | fu => 27
  | fx => 26

def name : Flag → String
  | c => "c"
  | v => "v"
  | sv => "sv"
  | av => "av"
  | sav => "sav"
  | fs => "fs"
  | fi => "fi"
  | fv => "fv"
  | fz => "fz"
  | fu => "fu"
  | fx => "fx"

/-- The name with a capital, as exported data spells it. -/
def tag (f : Flag) : String := f.name.capitalize

def ofName? (text : String) : Option Flag := all.find? (·.name == text)

/-- Place of the flag in a `FlagSet`. -/
def place : Flag → Nat
  | c => 0
  | v => 1
  | sv => 2
  | av => 3
  | sav => 4
  | fs => 5
  | fi => 6
  | fv => 7
  | fz => 8
  | fu => 9
  | fx => 10

end Flag

/-- A set of flags, one bit each. -/
structure FlagSet where
  bits : BitVec 11
  deriving DecidableEq, Repr, Inhabited

namespace FlagSet

def empty : FlagSet := ⟨0⟩

def contains (s : FlagSet) (f : Flag) : Bool := s.bits.getLsbD f.place

def insert (s : FlagSet) (f : Flag) : FlagSet := ⟨s.bits ||| BitVec.twoPow 11 f.place⟩

def ofList (fs : List Flag) : FlagSet := fs.foldl insert empty

/-- The members, integer flags before floating-point flags. -/
def toList (s : FlagSet) : List Flag := Flag.all.filter s.contains

/-- Overflow, its sticky copy and advanced overflow. -/
def overflow : FlagSet := ofList [.v, .sv, .av]

/-- All overflow flags. -/
def overflows : FlagSet := ofList [.v, .sv, .av, .sav]

/-- All overflow flags and carry. -/
def carryOverflows : FlagSet := ofList Flag.integer

def floatInvalid : FlagSet := ofList [.fs, .fi]

def floatInexact : FlagSet := ofList [.fs, .fx]

def floatConversion : FlagSet := ofList [.fs, .fi, .fx]

def floatArithmetic : FlagSet := ofList [.fs, .fi, .fv, .fu, .fx]

def floatAll : FlagSet := ofList Flag.floating

/-- The members' names in capitals, joined by bars. -/
def text (s : FlagSet) : String := " | ".intercalate (s.toList.map (·.name.toUpper))

end FlagSet

end Tricore
