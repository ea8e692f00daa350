import Tricore.Instruction.Error
import Tricore.Opcode.Table

/-!
# Instructions

`Instruction.decode` reads one instruction from bytes. Bit 0 of the first byte tells a 32-bit
encoding (one) from a 16-bit encoding (zero).
-/

namespace Tricore

structure Instruction where
  addr : Address
  /-- Length in bytes, two or four. -/
  length : Nat
  /-- The encoding; the upper half is zero for a short one. -/
  raw : Word
  primary : BitVec 8
  format : Format
  row : Row
  operands : List Operand
  deriving DecidableEq, Repr

namespace Instruction

def mnemonic (i : Instruction) : String := i.row.mnemonic

/-- Address of the instruction after this one. -/
def next (i : Instruction) : Address := i.addr + .ofNat 32 i.length

/-- The direct branch target, if there is one. -/
def target? (i : Instruction) : Option Address :=
  i.operands.findSome? fun | .target t => some t | _ => none

/-- An encoding taken from the front of some bytes. -/
structure Encoding where
  raw : Word
  long : Bool
  deriving DecidableEq, Repr

def Encoding.length (e : Encoding) : Nat := if e.long then 4 else 2

/-- The encoding that bytes start with; the error is how many bytes it would need. -/
def encodingOf : List Byte → Except Nat Encoding
  | b0 :: b1 :: rest =>
    if b0.getLsbD 0 then
      match rest with
      | b2 :: b3 :: _ => .ok ⟨b3 ++ b2 ++ b1 ++ b0, true⟩
      | _ => .error 4
    else .ok ⟨(b1 ++ b0).setWidth 32, false⟩
  | _ => .error 4

/-- Decode the encoding at `addr`. -/
def ofEncoding (isa : Isa) (e : Encoding) (addr : Address) : Except DecodeError Instruction :=
  let primary := Opcode.primaryOf e.raw e.long
  match Opcode.group? primary with
  | none => .error (.unknownPrimary addr primary)
  | some group =>
    let secondary := (group.format.secondary? e.raw).getD 0
    match group.find? secondary with
    | none => .error (.unknownSecondary addr primary secondary)
    | some row =>
      if isa.supports row.since then
        match row.operands.mapM (·.resolve group.format (.extract group.format e.raw) addr) with
        | .error index => .error (.oddPair addr row.mnemonic index e.length)
        | .ok operands => .ok ⟨addr, e.length, e.raw, primary, group.format, row, operands⟩
      else .error (.requiresV16 addr row.mnemonic e.length)

/-- Decode the instruction that the bytes at `addr` start with. -/
def decode (isa : Isa) (bytes : List Byte) (addr : Address) : Except DecodeError Instruction :=
  match encodingOf bytes with
  | .error need => .error (.truncated addr need bytes.length)
  | .ok e => ofEncoding isa e addr

end Instruction

end Tricore
