import Tricore.Opcode.Row

/-!
# Division and floating point

32-bit encodings of the divide unit and the floating-point unit.
-/

namespace Tricore.Opcode

open OperandKind

/-- Division set-up, floating point and bit shuffles on one or two sources. -/
def divideRows : List Row :=
  [.flagged .floatInvalid 0x00 "cmp.f" [dc, da, db] .floatCompare,
    .plain 0x01 "bmerge" [dc, da, db] (.dataIntrinsic .bmerge),
    .plain 0x02 "parity" [dc, da] (.dataIntrinsic .parity),
    .late (.plain 0x03 "crc32" [dc, db, da] (.dataIntrinsic .crc32)),
    .flagged .floatArithmetic 0x04 "mul.f" [dc, da, db] (.float .mul),
    .flagged .floatAll 0x05 "div.f" [dc, da, db] (.float .div),
    .plain 0x08 "unpack" [ec, da] (.dataIntrinsic .unpack),
    .plain 0x09 "bsplit" [ec, da] (.dataIntrinsic .bsplit),
    .flagged .overflow 0x0A "dvinit.u" [ec, da, db] (.divideInit .word .unsigned),
    .flagged .floatAll 0x0C "updfl" [da] .updateFlags,
    .flagged .floatConversion 0x10 "ftoi" [dc, da] (.floatConvert .toInt),
    .flagged .floatConversion 0x11 "ftoq31" [dc, da, db] (.floatConvert .toFraction),
    .flagged .floatConversion 0x12 "ftou" [dc, da] (.floatConvert .toUInt),
    .flagged .floatConversion 0x13 "ftoiz" [dc, da] (.floatConvert .toIntTrunc),
    .flagged .floatInexact 0x14 "itof" [dc, da] (.floatConvert .ofInt),
    .flagged .floatInexact 0x15 "q31tof" [dc, da, db] (.floatConvert .ofFraction),
    .flagged .floatInexact 0x16 "utof" [dc, da] (.floatConvert .ofUInt),
    .flagged .floatConversion 0x17 "ftouz" [dc, da] (.floatConvert .toUIntTrunc),
    .flagged .floatConversion 0x18 "ftoq31z" [dc, da, db] (.floatConvert .toFractionTrunc),
    .flagged .floatInvalid 0x19 "qseed.f" [dc, da] (.floatConvert .rsqrtSeed),
    .flagged .overflow 0x1A "dvinit" [ec, da, db] (.divideInit .word .signed),
    .late (.flagged .overflow 0x20 "div" [ec, da, db] (.divide .signed)),
    .late (.flagged .overflow 0x21 "div.u" [ec, da, db] (.divide .unsigned)),
    .flagged .overflow 0x2A "dvinit.hu" [ec, da, db] (.divideInit .half .unsigned),
    .flagged .overflow 0x3A "dvinit.h" [ec, da, db] (.divideInit .half .signed),
    .flagged .overflow 0x4A "dvinit.bu" [ec, da, db] (.divideInit .byte .unsigned),
    .flagged .overflow 0x5A "dvinit.b" [ec, da, db] (.divideInit .byte .signed)]

/-- Division steps, floating-point sums and index searches on three sources. -/
def divideStepRows : List Row :=
  [.plain 0x00 "pack" [dc, ed, da] (.dataIntrinsic .pack),
    .late (.plain 0x01 "crcn" [dc, dd, da, db] (.dataIntrinsic .crcn)),
    .flagged .floatArithmetic 0x02 "add.f" [dc, dd, da] (.float .add),
    .flagged .floatArithmetic 0x03 "sub.f" [dc, dd, da] (.float .sub),
    .flagged .floatArithmetic 0x06 "madd.f" [dc, dd, da, db] (.floatMultiplyAdd false),
    .flagged .floatArithmetic 0x07 "msub.f" [dc, dd, da, db] (.floatMultiplyAdd true),
    .plain 0x08 "ixmin" [ec, ed, db] (.dataIntrinsic .ixmin),
    .plain 0x09 "ixmin.u" [ec, ed, db] (.dataIntrinsic .ixminU),
    .plain 0x0A "ixmax" [ec, ed, db] (.dataIntrinsic .ixmax),
    .plain 0x0B "ixmax.u" [ec, ed, db] (.dataIntrinsic .ixmaxU),
    .plain 0x0D "dvadj" [ec, ed, db] (.dataIntrinsic .dvadj),
    .plain 0x0E "dvstep.u" [ec, ed, db] (.dataIntrinsic .dvstepU),
    .plain 0x0F "dvstep" [ec, ed, db] (.dataIntrinsic .dvstep)]

/-- Division, floating point and the operations encoded beside them. -/
def division : List Group :=
  [⟨0x4B, .rr, divideRows⟩,
    ⟨0x6B, .rrr, divideStepRows⟩]

end Tricore.Opcode
