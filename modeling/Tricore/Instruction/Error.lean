import Tricore.Text.Hex
import Tricore.Width

/-!
# Encodings that are refused

Why bytes are no instruction, and how many bytes a host should step over to go on.
-/

namespace Tricore

inductive DecodeError where
  | truncated (addr : Address) (need got : Nat)
  | unknownPrimary (addr : Address) (primary : BitVec 8)
  | unknownSecondary (addr : Address) (primary secondary : BitVec 8)
  /-- A register pair was named by an odd index. -/
  | oddPair (addr : Address) (mnemonic : String) (index length : Nat)
  | requiresV16 (addr : Address) (mnemonic : String) (length : Nat)
  /-- The operands do not fit what the instruction does. -/
  | unliftable (addr : Address) (mnemonic : String) (length : Nat)
  deriving DecidableEq, Repr

namespace DecodeError

def message : DecodeError → String
  | truncated addr need got =>
    s!"truncated instruction at {Text.hexAddress addr}: need {need} bytes, have {got}"
  | unknownPrimary addr primary =>
    s!"unknown primary opcode {Text.hexOpcode primary} at {Text.hexAddress addr}"
  | unknownSecondary addr primary secondary =>
    s!"unknown secondary opcode {Text.hexOpcode secondary} under primary " ++
      s!"{Text.hexOpcode primary} at {Text.hexAddress addr}"
  | oddPair addr mnemonic index _ =>
    s!"odd register pair index {index} in {mnemonic} at {Text.hexAddress addr}"
  | requiresV16 addr mnemonic _ => s!"{mnemonic} at {Text.hexAddress addr} requires TriCore v1.6"
  | unliftable addr mnemonic _ =>
    s!"{mnemonic} at {Text.hexAddress addr} has operands the lifter cannot represent"

/-- The name in exported data. -/
def tag : DecodeError → String
  | truncated _ _ _ => "Truncated"
  | unknownPrimary _ _ => "UnknownPrimary"
  | unknownSecondary _ _ _ => "UnknownSecondary"
  | oddPair _ _ _ _ => "OddPair"
  | requiresV16 _ _ _ => "RequiresV16"
  | unliftable _ _ _ => "Unliftable"

/-- Bytes to step over: the length of the encoding that was refused, four where not even a
half-word could be read. -/
def skip : DecodeError → Nat
  | truncated _ need _ => need
  | unknownPrimary _ primary | unknownSecondary _ primary _ => if primary.getLsbD 0 then 4 else 2
  | oddPair _ _ _ length | requiresV16 _ _ length | unliftable _ _ length => length

/-- The message a host sees, with the number of bytes to step over. -/
def report (e : DecodeError) : String := s!"{e.message} (skip {e.skip} bytes)"

end DecodeError

end Tricore
