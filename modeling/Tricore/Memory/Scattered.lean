import Tricore.Memory.Store

/-!
# Memory byte by byte

`size` bytes from `base` on, around the end of the address space if need be. Each byte is there or
missing on its own, so a wide access may be made in part.
-/

namespace Tricore

structure Scattered where
  base : Address
  size : Nat
  bytes : Store := .empty

namespace Scattered

def offset (m : Scattered) (addr : Address) : Nat := (addr - m.base).toNat

def readByte (m : Scattered) (addr : Address) : Except Fault Byte :=
  if m.offset addr < m.size then .ok (m.bytes.get (m.offset addr)) else .error (.missing addr)

def writeByte (m : Scattered) (addr : Address) (b : Byte) : Except Fault Scattered :=
  if m.offset addr < m.size then .ok { m with bytes := m.bytes.put (m.offset addr) b }
  else .error (.missing addr)

instance : Bus Scattered where
  readByte := readByte
  writeByte := writeByte

/-- The bytes that differ from those of an earlier memory, by address. -/
def changes (old new : Scattered) : List (Address × Byte) :=
  let found := (old.bytes.changes new.bytes).map fun (i, b) => (new.base + .ofNat 32 i, b)
  found.mergeSort fun x y => x.1 ≤ y.1

end Scattered

end Tricore
