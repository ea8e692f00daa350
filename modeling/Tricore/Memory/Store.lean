import Std.Data.TreeMap
import Tricore.Memory.Bus

/-!
# Byte stores

Bytes by index, zero until they are written.
-/

namespace Tricore

structure Store where
  written : Std.TreeMap Nat Byte := {}

namespace Store

def empty : Store := {}

def get (s : Store) (i : Nat) : Byte := s.written.getD i 0

def put (s : Store) (i : Nat) (b : Byte) : Store := ⟨s.written.insert i b⟩

/-- `n` bytes from index `i` on. -/
def slice (s : Store) (i : Nat) : Nat → List Byte
  | 0 => []
  | n + 1 => s.get i :: s.slice (i + 1) n

/-- Bytes put from index `i` on. -/
def putAll (s : Store) (i : Nat) : List Byte → Store
  | [] => s
  | b :: bs => (s.put i b).putAll (i + 1) bs

/-- The bytes that differ from those of an earlier store, by index. -/
def changes (old new : Store) : List (Nat × Byte) :=
  new.written.toList.filter fun (i, b) => old.get i != b

end Store

end Tricore
