/-!
# Encoding formats

A format fixes where the fields of an encoding sit. The names are those of the architecture manual;
formats whose name starts with `S` (all but `sys`) are 16 bits long, the others 32.
-/

namespace Tricore

inductive Format where
  | abs
  | absb
  | b
  | bit
  | bo
  | bol
  | brc
  | brn
  | brr
  | rc
  | rcpw
  | rcr
  | rcrr
  | rcrw
  | rlc
  | rr
  | rr1
  | rr2
  | rrpw
  | rrr
  | rrr1
  | rrr2
  | rrrr
  | rrrw
  | sys
  | sb
  | sbc
  | sbr
  | sbrn
  | sc
  | slr
  | slro
  | sr
  | src
  | sro
  | srr
  | srrs
  | ssr
  | ssro
  deriving DecidableEq, Repr, Inhabited

namespace Format

def all : List Format :=
  [abs, absb, b, bit, bo, bol, brc, brn, brr, rc, rcpw, rcr, rcrr, rcrw, rlc, rr, rr1, rr2,
    rrpw, rrr, rrr1, rrr2, rrrr, rrrw, sys, sb, sbc, sbr, sbrn, sc, slr, slro, sr, src, sro,
    srr, srrs, ssr, ssro]

def name : Format → String
  | abs => "ABS"
  | absb => "ABSB"
  | b => "B"
  | bit => "BIT"
  | bo => "BO"
  | bol => "BOL"
  | brc => "BRC"
  | brn => "BRN"
  | brr => "BRR"
  | rc => "RC"
  | rcpw => "RCPW"
  | rcr => "RCR"
  | rcrr => "RCRR"
  | rcrw => "RCRW"
  | rlc => "RLC"
  | rr => "RR"
  | rr1 => "RR1"
  | rr2 => "RR2"
  | rrpw => "RRPW"
  | rrr => "RRR"
  | rrr1 => "RRR1"
  | rrr2 => "RRR2"
  | rrrr => "RRRR"
  | rrrw => "RRRW"
  | sys => "SYS"
  | sb => "SB"
  | sbc => "SBC"
  | sbr => "SBR"
  | sbrn => "SBRN"
  | sc => "SC"
  | slr => "SLR"
  | slro => "SLRO"
  | sr => "SR"
  | src => "SRC"
  | sro => "SRO"
  | srr => "SRR"
  | srrs => "SRRS"
  | ssr => "SSR"
  | ssro => "SSRO"

/-- Is an encoding of this format 16 bits long? -/
def isShort : Format → Bool
  | sb | sbc | sbr | sbrn | sc | slr | slro | sr | src | sro | srr | srrs | ssr | ssro => true
  | _ => false

/-- Length of an encoding in bytes. -/
def length (f : Format) : Nat := if f.isShort then 2 else 4

/-- Lowest bit and width of the secondary opcode, if the format has one. -/
def secondaryField? : Format → Option (Nat × Nat)
  | abs | absb => some (26, 2)
  | bit | rcpw | rrpw => some (21, 2)
  | bo | sys => some (22, 6)
  | brc | brn | brr => some (31, 1)
  | rc => some (21, 7)
  | rcr | rcrr | rcrw | rrrr | rrrw => some (21, 3)
  | rr => some (20, 8)
  | rr1 => some (18, 10)
  | rr2 => some (16, 12)
  | rrr => some (20, 4)
  | rrr1 => some (18, 6)
  | rrr2 => some (16, 8)
  | sr => some (12, 4)
  | _ => none

end Format

end Tricore
