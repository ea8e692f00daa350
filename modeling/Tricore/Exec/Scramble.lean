import Tricore.Width

/-!
# Bit shuffles

The operations on single bits of a word that have no short expression.
-/

namespace Tricore

/-- The pattern whose bits are `bit 0`, `bit 1`, … -/
def ofBits (bit : Nat → Bool) : (n : Nat) → BitVec n
  | 0 => 0
  | n + 1 => BitVec.cons (bit n) (ofBits bit n)

/-- One step of a bit-reversed index: the low half-word plus the high one, with the carry running
from high bits to low ones. -/
def bitReverseStep (word : Word) : Word :=
  let index : BitVec 16 := word.extractLsb' 0 16
  let modifier : BitVec 16 := word.extractLsb' 16 16
  modifier ++ (index.reverse + modifier.reverse).reverse

/-- The parity of each byte, in its bit 0. -/
def parity (x : Word) : Word :=
  let odd := fun lo => (List.range' lo 8).foldl (fun p i => p ^^ x.getLsbD i) false
  (BitVec.ofBool (odd 24)).setWidth 8 ++ (BitVec.ofBool (odd 16)).setWidth 8 ++
    (BitVec.ofBool (odd 8)).setWidth 8 ++ (BitVec.ofBool (odd 0)).setWidth 8

/-- The low bits of `a` at the odd places and those of `b` at the even ones. -/
def bmerge (a b : Word) : Word :=
  ofBits (fun i => if i % 2 = 1 then a.getLsbD (i / 2) else b.getLsbD (i / 2)) 32

/-- The odd bits in the high word and the even bits in the low one. -/
def bsplit (x : Word) : Value :=
  let odd : Word := (ofBits (fun i => x.getLsbD (2 * i + 1)) 16).setWidth 32
  let even : Word := (ofBits (fun i => x.getLsbD (2 * i)) 16).setWidth 32
  odd ++ even

end Tricore
