import Tricore.Memory.Store

/-!
# A window of memory

`size` bytes from `base` on. An access is inside the window if it starts at or above the base and
its offset from the base leaves room for all its bytes; it is made whole or not at all.
-/

namespace Tricore

structure Window where
  base : Address
  size : Nat
  bytes : Store := .empty

namespace Window

def offset (w : Window) (addr : Address) : Nat := (addr - w.base).toNat

/-- Are `length` bytes from `addr` on inside the window? -/
def covers (w : Window) (addr : Address) (length : Nat) : Bool :=
  decide (w.base ≤ addr) && decide (w.offset addr + length ≤ w.size)

def readBytes (w : Window) (addr : Address) (length : Nat) : Except Fault (List Byte) :=
  if w.covers addr length then .ok (w.bytes.slice (w.offset addr) length)
  else .error (.outside addr length)

def load (w : Window) (addr : Address) (bytes : List Byte) : Except Fault Window :=
  if w.covers addr bytes.length then
    .ok { w with bytes := w.bytes.putAll (w.offset addr) bytes }
  else .error (.outside addr bytes.length)

/-- The window after an access, unchanged if it failed. -/
def attempt (w : Window) : Except Fault Window → Window × Option Fault
  | .ok w => (w, none)
  | .error fault => (w, some fault)

instance : Bus Window where
  readByte w addr :=
    if w.covers addr 1 then .ok (w.bytes.get (w.offset addr)) else .error (.outside addr 1)
  writeByte w addr b := w.load addr [b]
  read w addr n := assemble <$> w.readBytes addr n
  write w addr n v := w.attempt (w.load addr (split n v))
  load w addr bytes := w.attempt (w.load addr bytes)

/-- The bytes that differ from those of an earlier window, with their addresses. -/
def changes (old new : Window) : List (Address × Byte) :=
  (old.bytes.changes new.bytes).map fun (i, b) => (new.base + .ofNat 32 i, b)

end Window

end Tricore
