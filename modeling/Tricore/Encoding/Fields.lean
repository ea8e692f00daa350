import Tricore.Encoding.Format
import Tricore.Width

/-!
# Fields of an encoding

`Fields.extract` takes the fields of a format out of a raw word, at their own widths and neither
extended nor scaled. The register fields sit at fixed places (a: 8-11, b: 12-15, d: 24-27,
c: 28-31) and are taken whether the format uses them or not; 16-bit formats have no c and d.
A 16-bit encoding is a raw word whose upper half is zero.
-/

namespace Tricore

/-- `len` bits of `raw` from bit `lo` up. -/
def bitsAt (raw : Word) (lo len : Nat) : BitVec len := raw.extractLsb' lo len

/-- The secondary opcode. Only its low eight bits select an instruction. -/
def Format.secondary? (f : Format) (raw : Word) : Option (BitVec 8) :=
  f.secondaryField?.map fun field => (bitsAt raw field.1 field.2).setWidth 8

structure Fields where
  a : BitVec 4 := 0
  b : BitVec 4 := 0
  c : BitVec 4 := 0
  d : BitVec 4 := 0
  /-- Shift count, bit index or scale. -/
  n : BitVec 5 := 0
  const : BitVec 16 := 0
  disp : BitVec 24 := 0
  off : BitVec 18 := 0
  pos : BitVec 5 := 0
  pos2 : BitVec 5 := 0
  width : BitVec 5 := 0
  bit : BitVec 1 := 0
  deriving DecidableEq, Repr, Inhabited

namespace Fields

/-- The offset of the absolute formats, in four parts. -/
def offset18 (raw : Word) : BitVec 18 :=
  bitsAt raw 12 4 ++ bitsAt raw 22 4 ++ bitsAt raw 28 4 ++ bitsAt raw 16 6

/-- The short offset of the base-plus-offset formats, in two parts. -/
def offset10 (raw : Word) : BitVec 10 := bitsAt raw 28 4 ++ bitsAt raw 16 6

/-- The long offset of the base-plus-offset formats, in three parts. -/
def offset16 (raw : Word) : BitVec 16 := bitsAt raw 22 6 ++ bitsAt raw 28 4 ++ bitsAt raw 16 6

def registers (f : Format) (raw : Word) : Fields :=
  let low : Fields := { a := bitsAt raw 8 4, b := bitsAt raw 12 4 }
  if f.isShort then low else { low with d := bitsAt raw 24 4, c := bitsAt raw 28 4 }

def extract (f : Format) (raw : Word) : Fields :=
  let r := registers f raw
  match f with
  | .abs => { r with off := offset18 raw }
  | .absb => { r with
      off := offset18 raw, pos := (bitsAt raw 8 3).setWidth 5, bit := bitsAt raw 11 1 }
  | .b => { r with disp := bitsAt raw 8 8 ++ bitsAt raw 16 16 }
  | .bit => { r with pos := bitsAt raw 16 5, pos2 := bitsAt raw 23 5 }
  | .bo => { r with off := (offset10 raw).setWidth 18 }
  | .bol => { r with off := (offset16 raw).setWidth 18 }
  | .brc => { r with
      const := (bitsAt raw 12 4).setWidth 16, disp := (bitsAt raw 16 15).setWidth 24 }
  | .brn => { r with
      n := bitsAt raw 7 1 ++ bitsAt raw 12 4, disp := (bitsAt raw 16 15).setWidth 24 }
  | .brr => { r with disp := (bitsAt raw 16 15).setWidth 24 }
  | .rc | .rcr => { r with const := (bitsAt raw 12 9).setWidth 16 }
  | .rcpw => { r with
      const := (bitsAt raw 12 4).setWidth 16, width := bitsAt raw 16 5, pos := bitsAt raw 23 5 }
  | .rcrr => { r with const := (bitsAt raw 12 4).setWidth 16 }
  | .rcrw => { r with const := (bitsAt raw 12 4).setWidth 16, width := bitsAt raw 16 5 }
  | .rlc => { r with const := bitsAt raw 12 16 }
  | .rr | .rr1 | .rrr | .rrr1 => { r with n := (bitsAt raw 16 2).setWidth 5 }
  | .rrpw => { r with width := bitsAt raw 16 5, pos := bitsAt raw 23 5 }
  | .rrrw => { r with width := bitsAt raw 16 5 }
  | .sb => { r with disp := (bitsAt raw 8 8).setWidth 24 }
  | .sbc => { r with
      disp := (bitsAt raw 8 4).setWidth 24, const := (bitsAt raw 12 4).setWidth 16 }
  | .sbr => { r with disp := (bitsAt raw 8 4).setWidth 24 }
  | .sbrn => { r with
      disp := (bitsAt raw 8 4).setWidth 24, n := (bitsAt raw 12 4).setWidth 5 }
  | .sc => { r with const := (bitsAt raw 8 8).setWidth 16 }
  | .slro | .ssro => { r with off := (bitsAt raw 12 4).setWidth 18 }
  -- The base register of this format is in bits 8-11; it is taken as `b`, like every other base.
  | .sro => { r with off := (bitsAt raw 12 4).setWidth 18, b := r.a }
  | .src => { r with const := (bitsAt raw 12 4).setWidth 16 }
  | .srrs => { r with n := (bitsAt raw 6 2).setWidth 5 }
  | .rr2 | .rrr2 | .rrrr | .sys | .slr | .sr | .srr | .ssr => r

end Fields

/-- The address an 18-bit absolute offset stands for: its top four bits name the segment. -/
def absoluteAddress (off : BitVec 18) : Address :=
  off.extractLsb' 14 4 ++ (0 : BitVec 14) ++ off.extractLsb' 0 14

/-- How a branch makes an address of its displacement. -/
inductive TargetKind where
  /-- Half-words from the branch; a four-bit displacement only reaches forward. -/
  | relative
  /-- As `relative`, sixteen half-words further. -/
  | relativeFar
  /-- Backwards by up to sixteen half-words. -/
  | loopBack
  /-- Segment in the top four bits, half-words in the others. -/
  | absolute
  deriving DecidableEq, Repr

namespace TargetKind

def all : List TargetKind := [relative, relativeFar, loopBack, absolute]

/-- The displacement in half-words, extended as the format says. -/
def signedDisp (f : Format) (disp : BitVec 24) : BitVec 32 :=
  match f with
  | .b => disp.signExtend 32
  | .brc | .brn | .brr => (disp.setWidth 15).signExtend 32
  | .sb => (disp.setWidth 8).signExtend 32
  | _ => disp.setWidth 32

def target (kind : TargetKind) (f : Format) (pc : Address) (disp : BitVec 24) : Address :=
  match kind with
  | relative => pc + signedDisp f disp * 2
  | relativeFar => pc + (disp.setWidth 32 + 16) <<< 1
  | loopBack => pc + (0xFFFFFFE0 ||| disp.setWidth 32 <<< 1)
  | absolute => disp.extractLsb' 20 4 ++ (0 : BitVec 7) ++ disp.extractLsb' 0 20 ++ (0 : BitVec 1)

end TargetKind

end Tricore
