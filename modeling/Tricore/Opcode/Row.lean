import Tricore.Isa
import Tricore.Opcode.Action
import Tricore.Operand

/-!
# Opcode rows

A `Row` is one instruction of the table: the secondary opcode that selects it, its mnemonic, how its
operands are read, what it does, which flags it writes and the revision it came with. A `Group`
holds the rows of one primary opcode, which all have the same format.
-/

namespace Tricore

structure Row where
  /-- Zero where the format has no secondary opcode. -/
  secondary : BitVec 8
  mnemonic : String
  operands : List OperandKind
  action : Action
  flags : FlagSet
  since : Isa := .v13
  deriving DecidableEq, Repr

structure Group where
  primary : BitVec 8
  format : Format
  rows : List Row
  deriving DecidableEq, Repr

namespace Row

/-- A row that writes no flag. -/
def plain (secondary : BitVec 8) (mnemonic : String) (operands : List OperandKind)
    (action : Action) : Row :=
  ⟨secondary, mnemonic, operands, action, .empty, .v13⟩

/-- A row that writes the overflow flags and their sticky copies. -/
def arith (secondary : BitVec 8) (mnemonic : String) (operands : List OperandKind)
    (action : Action) : Row :=
  ⟨secondary, mnemonic, operands, action, .overflows, .v13⟩

/-- A row that writes the given flags. -/
def flagged (flags : FlagSet) (secondary : BitVec 8) (mnemonic : String)
    (operands : List OperandKind) (action : Action) : Row :=
  ⟨secondary, mnemonic, operands, action, flags, .v13⟩

/-- The row, introduced with v1.6. -/
def late (r : Row) : Row := { r with since := .v16 }

end Row

/-- The row with the given secondary opcode. -/
def Group.find? (g : Group) (secondary : BitVec 8) : Option Row :=
  g.rows.find? (·.secondary == secondary)

/-! ## Short names for the operands of the table -/

namespace OperandKind

def da : OperandKind := .data .a
def db : OperandKind := .data .b
def dc : OperandKind := .data .c
def dd : OperandKind := .data .d
def d15 : OperandKind := .fixed (.d 15)
def ea : OperandKind := .dataPair .a
def ec : OperandKind := .dataPair .c
def ed : OperandKind := .dataPair .d
def aa : OperandKind := .address .a
def ab : OperandKind := .address .b
def ac : OperandKind := .address .c
def a10 : OperandKind := .fixed (.a 10)
def a15 : OperandKind := .fixed (.a 15)
def pa : OperandKind := .addressPair .a
def rel : OperandKind := .target .relative
def relFar : OperandKind := .target .relativeFar

/-- The halves that a packed multiply takes of the register before it. -/
def halves (h : HalfPair) : OperandKind := .selector h.name

end OperandKind

end Tricore
