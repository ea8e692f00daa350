import Tricore.Opcode.Row

/-!
# Integer arithmetic, logic and moves

32-bit encodings that combine registers and constants into a register.
-/

namespace Tricore.Opcode

open OperandKind

/-- Moves, sums and comparisons of address registers. -/
def addressRows : List Row :=
  [.plain 0x00 "mov.aa" [ac, ab] .move,
    .plain 0x01 "add.a" [ac, aa, ab] .add,
    .plain 0x02 "sub.a" [ac, aa, ab] .sub,
    .plain 0x40 "eq.a" [dc, aa, ab] (.compare .eq),
    .plain 0x41 "ne.a" [dc, aa, ab] (.compare .ne),
    .plain 0x42 "lt.a" [dc, aa, ab] (.compare .ltU),
    .plain 0x43 "ge.a" [dc, aa, ab] (.compare .geU),
    .plain 0x48 "eqz.a" [dc, aa] (.compare .eq),
    .plain 0x49 "nez.a" [dc, aa] (.compare .ne),
    .plain 0x4C "mov.d" [dc, ab] .move,
    .plain 0x60 "addsc.a" [ac, ab, da, index] .addScaled,
    .plain 0x62 "addsc.at" [ac, ab, da] .addBitIndex,
    .plain 0x63 "mov.a" [ac, db] .move]

/-- Arithmetic, comparisons and packed operations on two registers. -/
def registerRows : List Row :=
  [.arith 0x00 "add" [dc, da, db] .add,
    .arith 0x02 "adds" [dc, da, db] (.addSat .signed),
    .arith 0x03 "adds.u" [dc, da, db] (.addSat .unsigned),
    .flagged .carryOverflows 0x04 "addx" [dc, da, db] .addExtended,
    .flagged .carryOverflows 0x05 "addc" [dc, da, db] .addCarry,
    .arith 0x08 "sub" [dc, da, db] .sub,
    .arith 0x0A "subs" [dc, da, db] (.subSat .signed),
    .arith 0x0B "subs.u" [dc, da, db] (.subSat .unsigned),
    .flagged .carryOverflows 0x0C "subx" [dc, da, db] .subExtended,
    .flagged .carryOverflows 0x0D "subc" [dc, da, db] .subCarry,
    .arith 0x0E "absdif" [dc, da, db] (.packed .absDiff .word),
    .arith 0x0F "absdifs" [dc, da, db] (.packed .absDiffSat .word),
    .plain 0x10 "eq" [dc, da, db] (.compare .eq),
    .plain 0x11 "ne" [dc, da, db] (.compare .ne),
    .plain 0x12 "lt" [dc, da, db] (.compare .lt),
    .plain 0x13 "lt.u" [dc, da, db] (.compare .ltU),
    .plain 0x14 "ge" [dc, da, db] (.compare .ge),
    .plain 0x15 "ge.u" [dc, da, db] (.compare .geU),
    .plain 0x18 "min" [dc, da, db] (.packed (.min .signed) .word),
    .plain 0x19 "min.u" [dc, da, db] (.packed (.min .unsigned) .word),
    .plain 0x1A "max" [dc, da, db] (.packed (.max .signed) .word),
    .plain 0x1B "max.u" [dc, da, db] (.packed (.max .unsigned) .word),
    .arith 0x1C "abs" [dc, db] (.packed .abs .word),
    .arith 0x1D "abss" [dc, db] (.packed .absSat .word),
    .plain 0x1F "mov" [dc, db] .move,
    .plain 0x20 "and.eq" [dc, da, db] (.compareInto .eq .and),
    .plain 0x21 "and.ne" [dc, da, db] (.compareInto .ne .and),
    .plain 0x22 "and.lt" [dc, da, db] (.compareInto .lt .and),
    .plain 0x23 "and.lt.u" [dc, da, db] (.compareInto .ltU .and),
    .plain 0x24 "and.ge" [dc, da, db] (.compareInto .ge .and),
    .plain 0x25 "and.ge.u" [dc, da, db] (.compareInto .geU .and),
    .plain 0x27 "or.eq" [dc, da, db] (.compareInto .eq .or),
    .plain 0x28 "or.ne" [dc, da, db] (.compareInto .ne .or),
    .plain 0x29 "or.lt" [dc, da, db] (.compareInto .lt .or),
    .plain 0x2A "or.lt.u" [dc, da, db] (.compareInto .ltU .or),
    .plain 0x2B "or.ge" [dc, da, db] (.compareInto .ge .or),
    .plain 0x2C "or.ge.u" [dc, da, db] (.compareInto .geU .or),
    .plain 0x2F "xor.eq" [dc, da, db] (.compareInto .eq .xor),
    .plain 0x30 "xor.ne" [dc, da, db] (.compareInto .ne .xor),
    .plain 0x31 "xor.lt" [dc, da, db] (.compareInto .lt .xor),
    .plain 0x32 "xor.lt.u" [dc, da, db] (.compareInto .ltU .xor),
    .plain 0x33 "xor.ge" [dc, da, db] (.compareInto .ge .xor),
    .plain 0x34 "xor.ge.u" [dc, da, db] (.compareInto .geU .xor),
    .plain 0x37 "sh.eq" [dc, da, db] (.compareInto .eq .shift),
    .plain 0x38 "sh.ne" [dc, da, db] (.compareInto .ne .shift),
    .plain 0x39 "sh.lt" [dc, da, db] (.compareInto .lt .shift),
    .plain 0x3A "sh.lt.u" [dc, da, db] (.compareInto .ltU .shift),
    .plain 0x3B "sh.ge" [dc, da, db] (.compareInto .ge .shift),
    .plain 0x3C "sh.ge.u" [dc, da, db] (.compareInto .geU .shift),
    .arith 0x40 "add.b" [dc, da, db] (.packed .add .byte),
    .arith 0x48 "sub.b" [dc, da, db] (.packed .sub .byte),
    .arith 0x4E "absdif.b" [dc, da, db] (.packed .absDiff .byte),
    .plain 0x50 "eq.b" [dc, da, db] (.packed .eq .byte),
    .plain 0x52 "lt.b" [dc, da, db] (.packed (.lt .signed) .byte),
    .plain 0x53 "lt.bu" [dc, da, db] (.packed (.lt .unsigned) .byte),
    .plain 0x56 "eqany.b" [dc, da, db] (.anyEqual .byte),
    .plain 0x58 "min.b" [dc, da, db] (.packed (.min .signed) .byte),
    .plain 0x59 "min.bu" [dc, da, db] (.packed (.min .unsigned) .byte),
    .plain 0x5A "max.b" [dc, da, db] (.packed (.max .signed) .byte),
    .plain 0x5B "max.bu" [dc, da, db] (.packed (.max .unsigned) .byte),
    .arith 0x5C "abs.b" [dc, db] (.packed .abs .byte),
    .plain 0x5E "sat.b" [dc, da] (.saturate .byte .signed),
    .plain 0x5F "sat.bu" [dc, da] (.saturate .byte .unsigned),
    .arith 0x60 "add.h" [dc, da, db] (.packed .add .half),
    .arith 0x62 "adds.h" [dc, da, db] (.packed (.addSat .signed) .half),
    .arith 0x63 "adds.hu" [dc, da, db] (.packed (.addSat .unsigned) .half),
    .arith 0x68 "sub.h" [dc, da, db] (.packed .sub .half),
    .arith 0x6A "subs.h" [dc, da, db] (.packed (.subSat .signed) .half),
    .arith 0x6B "subs.hu" [dc, da, db] (.packed (.subSat .unsigned) .half),
    .arith 0x6E "absdif.h" [dc, da, db] (.packed .absDiff .half),
    .arith 0x6F "absdifs.h" [dc, da, db] (.packed .absDiffSat .half),
    .plain 0x70 "eq.h" [dc, da, db] (.packed .eq .half),
    .plain 0x72 "lt.h" [dc, da, db] (.packed (.lt .signed) .half),
    .plain 0x73 "lt.hu" [dc, da, db] (.packed (.lt .unsigned) .half),
    .plain 0x76 "eqany.h" [dc, da, db] (.anyEqual .half),
    .plain 0x78 "min.h" [dc, da, db] (.packed (.min .signed) .half),
    .plain 0x79 "min.hu" [dc, da, db] (.packed (.min .unsigned) .half),
    .plain 0x7A "max.h" [dc, da, db] (.packed (.max .signed) .half),
    .plain 0x7B "max.hu" [dc, da, db] (.packed (.max .unsigned) .half),
    .arith 0x7C "abs.h" [dc, db] (.packed .abs .half),
    .arith 0x7D "abss.h" [dc, db] (.packed .absSat .half),
    .plain 0x7E "sat.h" [dc, da] (.saturate .half .signed),
    .plain 0x7F "sat.hu" [dc, da] (.saturate .half .unsigned),
    .late (.plain 0x80 "mov" [ec, db] .move),
    .late (.plain 0x81 "mov" [ec, da, db] .movePair),
    .plain 0x90 "eq.w" [dc, da, db] (.packed .eq .word),
    .plain 0x92 "lt.w" [dc, da, db] (.packed (.lt .signed) .word),
    .plain 0x93 "lt.wu" [dc, da, db] (.packed (.lt .unsigned) .word)]

/-- Arithmetic and comparisons with a nine-bit constant. -/
def constantRows : List Row :=
  [.arith 0x00 "add" [dc, da, signed 9] .add,
    .arith 0x02 "adds" [dc, da, signed 9] (.addSat .signed),
    .arith 0x03 "adds.u" [dc, da, signed 9] (.addSat .unsigned),
    .flagged .carryOverflows 0x04 "addx" [dc, da, signed 9] .addExtended,
    .flagged .carryOverflows 0x05 "addc" [dc, da, signed 9] .addCarry,
    .arith 0x08 "rsub" [dc, da, signed 9] .rsub,
    .arith 0x0A "rsubs" [dc, da, signed 9] (.rsubSat .signed),
    .arith 0x0B "rsubs.u" [dc, da, signed 9] (.rsubSat .unsigned),
    .arith 0x0E "absdif" [dc, da, signed 9] (.packed .absDiff .word),
    .arith 0x0F "absdifs" [dc, da, signed 9] (.packed .absDiffSat .word),
    .plain 0x10 "eq" [dc, da, signed 9] (.compare .eq),
    .plain 0x11 "ne" [dc, da, signed 9] (.compare .ne),
    .plain 0x12 "lt" [dc, da, signed 9] (.compare .lt),
    .plain 0x13 "lt.u" [dc, da, unsigned] (.compare .ltU),
    .plain 0x14 "ge" [dc, da, signed 9] (.compare .ge),
    .plain 0x15 "ge.u" [dc, da, unsigned] (.compare .geU),
    .plain 0x18 "min" [dc, da, signed 9] (.packed (.min .signed) .word),
    .plain 0x19 "min.u" [dc, da, unsigned] (.packed (.min .unsigned) .word),
    .plain 0x1A "max" [dc, da, signed 9] (.packed (.max .signed) .word),
    .plain 0x1B "max.u" [dc, da, unsigned] (.packed (.max .unsigned) .word),
    .plain 0x20 "and.eq" [dc, da, signed 9] (.compareInto .eq .and),
    .plain 0x21 "and.ne" [dc, da, signed 9] (.compareInto .ne .and),
    .plain 0x22 "and.lt" [dc, da, signed 9] (.compareInto .lt .and),
    .plain 0x23 "and.lt.u" [dc, da, unsigned] (.compareInto .ltU .and),
    .plain 0x24 "and.ge" [dc, da, signed 9] (.compareInto .ge .and),
    .plain 0x25 "and.ge.u" [dc, da, unsigned] (.compareInto .geU .and),
    .plain 0x27 "or.eq" [dc, da, signed 9] (.compareInto .eq .or),
    .plain 0x28 "or.ne" [dc, da, signed 9] (.compareInto .ne .or),
    .plain 0x29 "or.lt" [dc, da, signed 9] (.compareInto .lt .or),
    .plain 0x2A "or.lt.u" [dc, da, unsigned] (.compareInto .ltU .or),
    .plain 0x2B "or.ge" [dc, da, signed 9] (.compareInto .ge .or),
    .plain 0x2C "or.ge.u" [dc, da, unsigned] (.compareInto .geU .or),
    .plain 0x2F "xor.eq" [dc, da, signed 9] (.compareInto .eq .xor),
    .plain 0x30 "xor.ne" [dc, da, signed 9] (.compareInto .ne .xor),
    .plain 0x31 "xor.lt" [dc, da, signed 9] (.compareInto .lt .xor),
    .plain 0x32 "xor.lt.u" [dc, da, unsigned] (.compareInto .ltU .xor),
    .plain 0x33 "xor.ge" [dc, da, signed 9] (.compareInto .ge .xor),
    .plain 0x34 "xor.ge.u" [dc, da, unsigned] (.compareInto .geU .xor),
    .plain 0x37 "sh.eq" [dc, da, signed 9] (.compareInto .eq .shift),
    .plain 0x38 "sh.ne" [dc, da, signed 9] (.compareInto .ne .shift),
    .plain 0x39 "sh.lt" [dc, da, signed 9] (.compareInto .lt .shift),
    .plain 0x3A "sh.lt.u" [dc, da, unsigned] (.compareInto .ltU .shift),
    .plain 0x3B "sh.ge" [dc, da, signed 9] (.compareInto .ge .shift),
    .plain 0x3C "sh.ge.u" [dc, da, unsigned] (.compareInto .geU .shift),
    .plain 0x56 "eqany.b" [dc, da, signed 9] (.anyEqual .byte),
    .plain 0x76 "eqany.h" [dc, da, signed 9] (.anyEqual .half)]

/-- Logic, shifts and bit counts of registers. -/
def logicRows : List Row :=
  [.plain 0x00 "sh" [dc, da, db] (.shift .logical),
    .flagged .carryOverflows 0x01 "sha" [dc, da, db] (.shift .arithmetic),
    .arith 0x02 "shas" [dc, da, db] (.shift .saturating),
    .plain 0x08 "and" [dc, da, db] (.logic .and),
    .plain 0x09 "nand" [dc, da, db] (.logic .nand),
    .plain 0x0A "or" [dc, da, db] (.logic .or),
    .plain 0x0B "nor" [dc, da, db] (.logic .nor),
    .plain 0x0C "xor" [dc, da, db] (.logic .xor),
    .plain 0x0D "xnor" [dc, da, db] (.logic .xnor),
    .plain 0x0E "andn" [dc, da, db] (.logic .andn),
    .plain 0x0F "orn" [dc, da, db] (.logic .orn),
    .plain 0x1B "clz" [dc, da] (.count .zeros .word),
    .plain 0x1C "clo" [dc, da] (.count .ones .word),
    .plain 0x1D "cls" [dc, da] (.count .signs .word),
    .plain 0x40 "sh.h" [dc, da, db] (.packed .shift .half),
    .plain 0x41 "sha.h" [dc, da, db] (.packed .shiftArithmetic .half),
    .plain 0x7C "clz.h" [dc, da] (.count .zeros .half),
    .plain 0x7D "clo.h" [dc, da] (.count .ones .half),
    .plain 0x7E "cls.h" [dc, da] (.count .signs .half)]

/-- Logic and shifts with a nine-bit constant. -/
def logicConstantRows : List Row :=
  [.plain 0x00 "sh" [dc, da, signed 6] (.shift .logical),
    .flagged .carryOverflows 0x01 "sha" [dc, da, signed 6] (.shift .arithmetic),
    .arith 0x02 "shas" [dc, da, signed 6] (.shift .saturating),
    .late (.plain 0x07 "shuffle" [dc, da, unsigned] (.dataIntrinsic .shuffle)),
    .plain 0x08 "and" [dc, da, unsigned] (.logic .and),
    .plain 0x09 "nand" [dc, da, unsigned] (.logic .nand),
    .plain 0x0A "or" [dc, da, unsigned] (.logic .or),
    .plain 0x0B "nor" [dc, da, unsigned] (.logic .nor),
    .plain 0x0C "xor" [dc, da, unsigned] (.logic .xor),
    .plain 0x0D "xnor" [dc, da, unsigned] (.logic .xnor),
    .plain 0x0E "andn" [dc, da, unsigned] (.logic .andn),
    .plain 0x0F "orn" [dc, da, unsigned] (.logic .orn),
    .plain 0x40 "sh.h" [dc, da, signed 5] (.packed .shift .half),
    .plain 0x41 "sha.h" [dc, da, signed 5] (.packed .shiftArithmetic .half)]

/-- Integer arithmetic, logic and moves. -/
def arithmetic : List Group :=
  [⟨0x01, .rr, addressRows⟩,
    ⟨0x0B, .rr, registerRows⟩,
    ⟨0x0F, .rr, logicRows⟩,
    ⟨0x11, .rlc, [.plain 0x00 "addih.a" [ac, aa, high] .add]⟩,
    ⟨0x1B, .rlc, [.arith 0x00 "addi" [dc, da, signed 16] .add]⟩,
    ⟨0x2B, .rrr,
      [.arith 0x00 "cadd" [dc, dd, da, db] (.condArith false false),
       .arith 0x01 "caddn" [dc, dd, da, db] (.condArith false true),
       .arith 0x02 "csub" [dc, dd, da, db] (.condArith true false),
       .arith 0x03 "csubn" [dc, dd, da, db] (.condArith true true),
       .plain 0x04 "sel" [dc, dd, da, db] (.select false),
       .plain 0x05 "seln" [dc, dd, da, db] (.select true)]⟩,
    ⟨0x3B, .rlc, [.plain 0x00 "mov" [dc, signed 16] .move]⟩,
    ⟨0x7B, .rlc, [.plain 0x00 "movh" [dc, high] .move]⟩,
    ⟨0x8B, .rc, constantRows⟩,
    ⟨0x8F, .rc, logicConstantRows⟩,
    ⟨0x91, .rlc, [.plain 0x00 "movh.a" [ac, high] .move]⟩,
    ⟨0x9B, .rlc, [.arith 0x00 "addih" [dc, da, high] .add]⟩,
    ⟨0xAB, .rcr,
      [.arith 0x00 "cadd" [dc, dd, da, signed 9] (.condArith false false),
       .arith 0x01 "caddn" [dc, dd, da, signed 9] (.condArith false true),
       .plain 0x04 "sel" [dc, dd, da, signed 9] (.select false),
       .plain 0x05 "seln" [dc, dd, da, signed 9] (.select true)]⟩,
    ⟨0xBB, .rlc, [.plain 0x00 "mov.u" [dc, unsigned] .move]⟩,
    ⟨0xFB, .rlc, [.late (.plain 0x00 "mov" [ec, signed 16] .move)]⟩]

end Tricore.Opcode
