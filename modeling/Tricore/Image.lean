import Tricore.Width

/-!
# Images

An image is a list of segments, each some bytes at a base address. A segment ends where its base
plus its length comes out, modulo the address space. Of segments that overlap, the first counts.
-/

namespace Tricore

structure Segment where
  name : String := "segment0"
  base : Address
  bytes : Array Byte
  permissions : String := "r-x"
  kind : String := "raw"
  deriving DecidableEq, Repr

namespace Segment

/-- The address after the last byte. -/
def stop (s : Segment) : Address := s.base + .ofNat 32 s.bytes.size

def contains (s : Segment) (addr : Address) : Bool :=
  decide (s.base ≤ addr) && decide (addr < s.stop)

def offset (s : Segment) (addr : Address) : Nat := (addr - s.base).toNat

end Segment

abbrev Image := List Segment

namespace Image

def segment? (img : Image) (addr : Address) : Option Segment := img.find? (·.contains addr)

def isMapped (img : Image) (addr : Address) : Bool := img.any (·.contains addr)

def byte? (img : Image) (addr : Address) : Option Byte := do
  let s ← img.segment? addr
  s.bytes[s.offset addr]?

/-- Up to `max` bytes from `addr` on, fewer at the end of a segment, none where nothing is
mapped. -/
def window (img : Image) (addr : Address) (max : Nat) : List Byte :=
  match img.segment? addr with
  | some s => (s.bytes.extract (s.offset addr) (s.offset addr + max)).toList
  | none => []

/-- How many bytes there are in all. -/
def size (img : Image) : Nat := img.foldl (fun n s => n + s.bytes.size) 0

end Image

/-- The bytes that an instruction at `addr` may have. -/
def Image.code (img : Image) (addr : Address) : List Byte := img.window addr 4

end Tricore
