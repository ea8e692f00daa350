import Tricore.Text.Hex
import Tricore.Width

/-!
# The data bus

A `Bus` is memory as the core sees it: bytes that can be read and written, each access with its own
reason to fail. Words are little-endian. By default a wide access is made byte by byte, from the
lowest address up and around the end of the address space; a wide write that fails leaves the
bytes before the failure written.
-/

namespace Tricore

/-- Why an access failed. -/
inductive Fault where
  /-- The bytes are not all inside the window. -/
  | outside (addr : Address) (length : Nat)
  | missing (addr : Address)
  deriving DecidableEq, Repr, Inhabited

def Fault.message : Fault → String
  | outside addr length => s!"{Text.hexAddress addr} (+{length}) is outside the mapped window"
  | missing addr => s!"no byte at {Text.hexAddress addr}"

/-- The value of bytes, lowest first. -/
def assemble : List Byte → Value
  | [] => 0
  | b :: bs => b.setWidth 64 ||| assemble bs <<< 8

/-- The low `n` bytes of a value, lowest first. -/
def split : Nat → Value → List Byte
  | 0, _ => []
  | n + 1, v => v.setWidth 8 :: split n (v >>> 8)

/-- `n` bytes from `addr` on, up to the first that cannot be read. -/
def readEach (readByte : Address → Except Fault Byte) (addr : Address) :
    Nat → Except Fault (List Byte)
  | 0 => .ok []
  | n + 1 => do
    let b ← readByte addr
    let bs ← readEach readByte (addr + 1) n
    return b :: bs

/-- Write bytes from `addr` on, up to the first that cannot be written. -/
def writeEach {β : Type} (writeByte : β → Address → Byte → Except Fault β) (m : β)
    (addr : Address) : List Byte → β × Option Fault
  | [] => (m, none)
  | b :: bs =>
    match writeByte m addr b with
    | .ok m => writeEach writeByte m (addr + 1) bs
    | .error fault => (m, some fault)

class Bus (β : Type) where
  readByte : β → Address → Except Fault Byte
  writeByte : β → Address → Byte → Except Fault β
  /-- A little-endian value of some bytes. -/
  read : β → Address → Nat → Except Fault Value := fun m addr n =>
    assemble <$> readEach (readByte m) addr n
  write : β → Address → Nat → Value → β × Option Fault := fun m addr n v =>
    writeEach writeByte m addr (split n v)
  /-- Copy bytes in. -/
  load : β → Address → List Byte → β × Option Fault := writeEach writeByte

end Tricore
