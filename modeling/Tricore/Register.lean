import Tricore.Register.Csfr
import Tricore.Text.Hex

/-!
# Registers

Data registers `d`, address registers `a`, their 64-bit pairs `e` and `p`, the program status word,
the program counter, the context link `pcxi`, the core special function registers, and the
temporaries that the effects of one instruction use among themselves.

Indices are not bounded here: a register file with sixteen registers reads them modulo 16.
-/

namespace Tricore

inductive Register where
  | d (n : Nat)
  | a (n : Nat)
  /-- A pair of data registers, low word in `d n`. -/
  | e (n : Nat)
  /-- A pair of address registers, low word in `a n`. -/
  | p (n : Nat)
  | psw
  | pc
  | pcxi
  | csfr (offset : BitVec 16)
  /-- A 32-bit temporary. -/
  | temp (n : Nat)
  /-- A 64-bit temporary. -/
  | tempWide (n : Nat)
  deriving DecidableEq, Repr, Inhabited

namespace Register

def stackPointer : Register := .a 10

/-- The register a call leaves its return address in. -/
def link : Register := .a 11

/-- The address registers that all tasks share. -/
def globals : List Register := [.a 0, .a 1, .a 8, .a 9]

def width : Register → Width
  | .e _ | .p _ | .tempWide _ => .double
  | _ => .word

/-- Low and high word of a pair. -/
def halves? : Register → Option (Register × Register)
  | .e n => some (.d n, .d (n + 1))
  | .p n => some (.a n, .a (n + 1))
  | _ => none

def isAddress : Register → Bool
  | .a _ => true
  | _ => false

def csfrName (offset : BitVec 16) : String :=
  match Csfr.name? offset with
  | some name => name.toLower
  | none => "csfr_" ++ Text.hexPadded 4 offset.toNat

def name : Register → String
  | .d n => s!"d{n}"
  | .a n => s!"a{n}"
  | .e n => s!"e{n}"
  | .p n => s!"p{n}"
  | .psw => "psw"
  | .pc => "pc"
  | .pcxi => "pcxi"
  | .csfr offset => csfrName offset
  | .temp n => s!"t{n}"
  | .tempWide n => s!"tw{n}"

/-- The register that an offset views, if it is one with a name of its own here. -/
def viewed? (offset : BitVec 16) : Option Register :=
  let n := offset.toNat
  if n = 0xFE00 then some .pcxi
  else if n = 0xFE04 then some .psw
  else if n = 0xFE08 then some .pc
  else if 0xFF00 ≤ n ∧ n ≤ 0xFF3C ∧ n % 4 = 0 then some (.d ((n - 0xFF00) / 4))
  else if 0xFF80 ≤ n ∧ n ≤ 0xFFBC ∧ n % 4 = 0 then some (.a ((n - 0xFF80) / 4))
  else none

/-- The register itself, or the one it is a view of. -/
def canonical : Register → Register
  | .csfr offset => (viewed? offset).getD (.csfr offset)
  | r => r

/-- Where a register lies inside the widest register that holds it: the container, the byte offset
in it and the size in bytes. -/
structure Location where
  container : Register
  offset : Nat
  size : Nat
  deriving DecidableEq, Repr

def location : Register → Location
  | .d n => ⟨.e (n - n % 2), n % 2 * 4, 4⟩
  | .a n => ⟨.p (n - n % 2), n % 2 * 4, 4⟩
  | r => ⟨r, 0, r.width.bytes⟩

/-- Every register a host should list: general purpose, pairs, core state, then the special
function registers that are no view of one of these. -/
def all : List Register :=
  (List.range 16).map .d ++ (List.range 16).map .a ++
    (List.range 8).map (fun n => .e (2 * n)) ++ (List.range 8).map (fun n => .p (2 * n)) ++
    [.psw, .pc, .pcxi] ++
    (Csfr.table.filter fun entry => (viewed? entry.1).isNone).map fun entry => .csfr entry.1

end Register

end Tricore
