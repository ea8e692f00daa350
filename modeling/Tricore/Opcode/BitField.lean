import Tricore.Opcode.Row

/-!
# Bits and bit fields

32-bit encodings that extract, insert and combine bits.
-/

namespace Tricore.Opcode

open OperandKind

/-- Logic of two bits. -/
def bitLogicRows : List Row :=
  [.plain 0x00 "and.t" [dc, da, position, db, position2] (.bitLogic .and none),
    .plain 0x01 "or.t" [dc, da, position, db, position2] (.bitLogic .or none),
    .plain 0x02 "nor.t" [dc, da, position, db, position2] (.bitLogic .nor none),
    .plain 0x03 "andn.t" [dc, da, position, db, position2] (.bitLogic .andn none)]

/-- Logic of two bits with an inverted result or operand. -/
def bitLogicInvertedRows : List Row :=
  [.plain 0x00 "nand.t" [dc, da, position, db, position2] (.bitLogic .nand none),
    .plain 0x01 "orn.t" [dc, da, position, db, position2] (.bitLogic .orn none),
    .plain 0x02 "xnor.t" [dc, da, position, db, position2] (.bitLogic .xnor none),
    .plain 0x03 "xor.t" [dc, da, position, db, position2] (.bitLogic .xor none)]

/-- Logic of two bits, and-ed into bit 0 of the destination. -/
def bitAndRows : List Row :=
  [.plain 0x00 "and.and.t" [dc, da, position, db, position2] (.bitLogic .and (some .and)),
    .plain 0x01 "and.or.t" [dc, da, position, db, position2] (.bitLogic .or (some .and)),
    .plain 0x02 "and.nor.t" [dc, da, position, db, position2] (.bitLogic .nor (some .and)),
    .plain 0x03 "and.andn.t" [dc, da, position, db, position2] (.bitLogic .andn (some .and))]

/-- Logic of two bits, or-ed into bit 0 of the destination. -/
def bitOrRows : List Row :=
  [.plain 0x00 "or.and.t" [dc, da, position, db, position2] (.bitLogic .and (some .or)),
    .plain 0x01 "or.or.t" [dc, da, position, db, position2] (.bitLogic .or (some .or)),
    .plain 0x02 "or.nor.t" [dc, da, position, db, position2] (.bitLogic .nor (some .or)),
    .plain 0x03 "or.andn.t" [dc, da, position, db, position2] (.bitLogic .andn (some .or))]

/-- Logic of two bits, shifted into the destination. -/
def bitShiftRows : List Row :=
  [.plain 0x00 "sh.and.t" [dc, da, position, db, position2] (.bitLogic .and (some .shift)),
    .plain 0x01 "sh.or.t" [dc, da, position, db, position2] (.bitLogic .or (some .shift)),
    .plain 0x02 "sh.nor.t" [dc, da, position, db, position2] (.bitLogic .nor (some .shift)),
    .plain 0x03 "sh.andn.t" [dc, da, position, db, position2] (.bitLogic .andn (some .shift))]

/-- Inverted logic of two bits, shifted into the destination. -/
def bitShiftInvertedRows : List Row :=
  [.plain 0x00 "sh.nand.t" [dc, da, position, db, position2] (.bitLogic .nand (some .shift)),
    .plain 0x01 "sh.orn.t" [dc, da, position, db, position2] (.bitLogic .orn (some .shift)),
    .plain 0x02 "sh.xnor.t" [dc, da, position, db, position2] (.bitLogic .xnor (some .shift)),
    .plain 0x03 "sh.xor.t" [dc, da, position, db, position2] (.bitLogic .xor (some .shift))]

/-- One bit copied into a word. -/
def bitInsertRows : List Row :=
  [.plain 0x00 "ins.t" [dc, da, position, db, position2] (.insertBit false),
    .plain 0x01 "insn.t" [dc, da, position, db, position2] (.insertBit true)]

/-- Bits and bit fields. -/
def bitField : List Group :=
  [⟨0x07, .bit, bitLogicInvertedRows⟩,
    ⟨0x17, .rrrr,
      [.plain 0x00 "insert" [dc, da, db, ed] .insert,
       .plain 0x02 "extr" [dc, da, ed] (.extract .signed),
       .plain 0x03 "extr.u" [dc, da, ed] (.extract .unsigned),
       .plain 0x04 "dextr" [dc, da, db, dd] .extractDouble]⟩,
    ⟨0x27, .bit, bitShiftRows⟩,
    ⟨0x37, .rrpw,
      [.plain 0x00 "insert" [dc, da, db, position, width] .insert,
       .plain 0x01 "imask" [ec, db, position, width] .insertMask,
       .plain 0x02 "extr" [dc, da, position, width] (.extract .signed),
       .plain 0x03 "extr.u" [dc, da, position, width] (.extract .unsigned)]⟩,
    ⟨0x47, .bit, bitAndRows⟩,
    ⟨0x57, .rrrw,
      [.plain 0x00 "insert" [dc, da, db, dd, width] .insert,
       .plain 0x01 "imask" [ec, db, dd, width] .insertMask,
       .plain 0x02 "extr" [dc, da, dd, width] (.extract .signed),
       .plain 0x03 "extr.u" [dc, da, dd, width] (.extract .unsigned)]⟩,
    ⟨0x67, .bit, bitInsertRows⟩,
    ⟨0x77, .rrpw, [.plain 0x00 "dextr" [dc, da, db, position] .extractDouble]⟩,
    ⟨0x87, .bit, bitLogicRows⟩,
    ⟨0x97, .rcrr, [.plain 0x00 "insert" [dc, da, unsigned, ed] .insert]⟩,
    ⟨0xA7, .bit, bitShiftInvertedRows⟩,
    ⟨0xB7, .rcpw,
      [.plain 0x00 "insert" [dc, da, unsigned, position, width] .insert,
       .plain 0x01 "imask" [ec, unsigned, position, width] .insertMask]⟩,
    ⟨0xC7, .bit, bitOrRows⟩,
    ⟨0xD7, .rcrw,
      [.plain 0x00 "insert" [dc, da, unsigned, dd, width] .insert,
       .plain 0x01 "imask" [ec, unsigned, dd, width] .insertMask]⟩]

end Tricore.Opcode
