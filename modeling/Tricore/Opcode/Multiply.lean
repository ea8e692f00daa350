import Tricore.Opcode.Row

/-!
# Multiplication

32-bit encodings of products and multiply-accumulate, on words, packed half-words and fractions.
-/

namespace Tricore.Opcode

open OperandKind

/-- Multiply-add of registers. -/
def multiplyAddRows : List Row :=
  [.arith 0x0A "madd" [dc, dd, da, db] (.multiplyAdd false .signed false false),
    .arith 0x6A "madd" [ec, ed, da, db] (.multiplyAdd false .signed true false),
    .arith 0x8A "madds" [dc, dd, da, db] (.multiplyAdd false .signed false true),
    .arith 0xEA "madds" [ec, ed, da, db] (.multiplyAdd false .signed true true),
    .arith 0x68 "madd.u" [ec, ed, da, db] (.multiplyAdd false .unsigned true false),
    .arith 0x88 "madds.u" [dc, dd, da, db] (.multiplyAdd false .unsigned false true),
    .arith 0xE8 "madds.u" [ec, ed, da, db] (.multiplyAdd false .unsigned true true)]

/-- Multiply-subtract of registers. -/
def multiplySubRows : List Row :=
  [.arith 0x0A "msub" [dc, dd, da, db] (.multiplyAdd true .signed false false),
    .arith 0x6A "msub" [ec, ed, da, db] (.multiplyAdd true .signed true false),
    .arith 0x8A "msubs" [dc, dd, da, db] (.multiplyAdd true .signed false true),
    .arith 0xEA "msubs" [ec, ed, da, db] (.multiplyAdd true .signed true true),
    .arith 0x68 "msub.u" [ec, ed, da, db] (.multiplyAdd true .unsigned true false),
    .arith 0x88 "msubs.u" [dc, dd, da, db] (.multiplyAdd true .unsigned false true),
    .arith 0xE8 "msubs.u" [ec, ed, da, db] (.multiplyAdd true .unsigned true true)]

/-- Multiply-add with a nine-bit constant. -/
def multiplyAddConstantRows : List Row :=
  [.arith 0x01 "madd" [dc, dd, da, signed 9] (.multiplyAdd false .signed false false),
    .arith 0x03 "madd" [ec, ed, da, signed 9] (.multiplyAdd false .signed true false),
    .arith 0x05 "madds" [dc, dd, da, signed 9] (.multiplyAdd false .signed false true),
    .arith 0x07 "madds" [ec, ed, da, signed 9] (.multiplyAdd false .signed true true),
    .arith 0x02 "madd.u" [ec, ed, da, unsigned] (.multiplyAdd false .unsigned true false),
    .arith 0x04 "madds.u" [dc, dd, da, unsigned] (.multiplyAdd false .unsigned false true),
    .arith 0x06 "madds.u" [ec, ed, da, unsigned] (.multiplyAdd false .unsigned true true)]

/-- Multiply-subtract with a nine-bit constant. -/
def multiplySubConstantRows : List Row :=
  [.arith 0x01 "msub" [dc, dd, da, signed 9] (.multiplyAdd true .signed false false),
    .arith 0x03 "msub" [ec, ed, da, signed 9] (.multiplyAdd true .signed true false),
    .arith 0x05 "msubs" [dc, dd, da, signed 9] (.multiplyAdd true .signed false true),
    .arith 0x07 "msubs" [ec, ed, da, signed 9] (.multiplyAdd true .signed true true),
    .arith 0x02 "msub.u" [ec, ed, da, unsigned] (.multiplyAdd true .unsigned true false),
    .arith 0x04 "msubs.u" [dc, dd, da, unsigned] (.multiplyAdd true .unsigned false true),
    .arith 0x06 "msubs.u" [ec, ed, da, unsigned] (.multiplyAdd true .unsigned true true)]

/-- Products of registers. -/
def multiplyRows : List Row :=
  [.arith 0x0A "mul" [dc, da, db] (.multiply .signed false false),
    .arith 0x6A "mul" [ec, da, db] (.multiply .signed true false),
    .arith 0x68 "mul.u" [ec, da, db] (.multiply .unsigned true false),
    .arith 0x88 "muls.u" [dc, da, db] (.multiply .unsigned false true),
    .arith 0x8A "muls" [dc, da, db] (.multiply .signed false true)]

/-- Products with a nine-bit constant. -/
def multiplyConstantRows : List Row :=
  [.arith 0x01 "mul" [dc, da, signed 9] (.multiply .signed false false),
    .arith 0x02 "mul.u" [ec, da, unsigned] (.multiply .unsigned true false),
    .arith 0x03 "mul" [ec, da, signed 9] (.multiply .signed true false),
    .arith 0x04 "muls.u" [dc, da, unsigned] (.multiply .unsigned false true),
    .arith 0x05 "muls" [dc, da, signed 9] (.multiply .signed false true)]

/-- The four half selections of a packed multiply, at consecutive secondary opcodes. -/
def halfRows (first : BitVec 8) (mnemonic : String) (head : List OperandKind)
    (hi lo : Accumulate) (shape : ProductShape) (sat : Bool) : List Row :=
  let entry (k : BitVec 8) (h : HalfPair) : Row :=
    .arith (first + k) mnemonic (head ++ [da, db, halves h, index])
      (.halfMultiply h hi lo shape sat)
  [entry 0 .ul, entry 1 .lu, entry 2 .ll, entry 3 .uu]

/-- Packed half-word products. -/
def packedMultiplyRows : List Row :=
  halfRows 0x18 "mul.h" [ec] .none .none .pair false ++
    halfRows 0x1C "mulm.h" [ec] .none .none .merged false ++
    halfRows 0x0C "mulr.h" [dc] .none .none .rounded false

/-- Packed half-word multiply-accumulate: plain, merged and rounded forms of one pair of signs,
each without and with saturation. -/
def packedAccumulateRows (stem : String) (hi lo : Accumulate) : List Row :=
  halfRows 0x18 (stem ++ ".h") [ec, ed] hi lo .pair false ++
    halfRows 0x38 (stem ++ "s.h") [ec, ed] hi lo .pair true ++
    halfRows 0x1C (stem ++ "m.h") [ec, ed] hi lo .merged false ++
    halfRows 0x3C (stem ++ "ms.h") [ec, ed] hi lo .merged true ++
    halfRows 0x0C (stem ++ "r.h") [dc, dd] hi lo .rounded false ++
    halfRows 0x2C (stem ++ "rs.h") [dc, dd] hi lo .rounded true

/-- Products of fractions. -/
def fractionRows : List Row :=
  [.arith 0x02 "mul.q" [dc, da, db, index] (.fractionMultiply .words false .none false false),
    .arith 0x1B "mul.q" [ec, da, db, index] (.fractionMultiply .words true .none false false),
    .arith 0x01 "mul.q" [dc, da, db, selector "l", index]
      (.fractionMultiply .lower false .none false false),
    .arith 0x19 "mul.q" [ec, da, db, selector "l", index]
      (.fractionMultiply .lower true .none false false),
    .arith 0x00 "mul.q" [dc, da, db, selector "u", index]
      (.fractionMultiply .upper false .none false false),
    .arith 0x18 "mul.q" [ec, da, db, selector "u", index]
      (.fractionMultiply .upper true .none false false),
    .arith 0x05 "mul.q" [dc, da, selector "l", db, selector "l", index]
      (.fractionMultiply .lowers false .none false false),
    .arith 0x04 "mul.q" [dc, da, selector "u", db, selector "u", index]
      (.fractionMultiply .uppers false .none false false),
    .arith 0x07 "mulr.q" [dc, da, selector "l", db, selector "l", index]
      (.fractionMultiply .lowers false .none true false),
    .arith 0x06 "mulr.q" [dc, da, selector "u", db, selector "u", index]
      (.fractionMultiply .uppers false .none true false)]

/-- Multiply-accumulate of fractions, without (`offset` 0) or with (`offset` 0x20) saturation. -/
def fractionAccumulateHalf (mnemonic : String) (offset : BitVec 8) (acc : Accumulate)
    (sat : Bool) : List Row :=
  let narrow (secondary : BitVec 8) (sources : List OperandKind) (src : FractionSource) : Row :=
    .arith (offset + secondary) mnemonic ([dc, dd] ++ sources ++ [index])
      (.fractionMultiply src false acc false sat)
  let wide (secondary : BitVec 8) (sources : List OperandKind) (src : FractionSource) : Row :=
    .arith (offset + secondary) mnemonic ([ec, ed] ++ sources ++ [index])
      (.fractionMultiply src true acc false sat)
  let l := selector "l"
  let u := selector "u"
  [narrow 0x02 [da, db] .words, wide 0x1B [da, db] .words,
    narrow 0x01 [da, db, l] .lower, wide 0x19 [da, db, l] .lower,
    narrow 0x00 [da, db, u] .upper, wide 0x18 [da, db, u] .upper,
    narrow 0x05 [da, l, db, l] .lowers, wide 0x1D [da, l, db, l] .lowers,
    narrow 0x04 [da, u, db, u] .uppers, wide 0x1C [da, u, db, u] .uppers]

/-- Rounding multiply-accumulate of half-word fractions. -/
def fractionRoundHalf (mnemonic : String) (offset : BitVec 8) (acc : Accumulate) (sat : Bool) :
    List Row :=
  let l := selector "l"
  let u := selector "u"
  [.arith (offset + 0x07) mnemonic [dc, dd, da, l, db, l, index]
      (.fractionMultiply .lowers false acc true sat),
    .arith (offset + 0x06) mnemonic [dc, dd, da, u, db, u, index]
      (.fractionMultiply .uppers false acc true sat)]

/-- Multiply-accumulate of fractions, and the packed rounding forms with a 64-bit accumulator. -/
def fractionAccumulateRows (stem : String) (acc : Accumulate) : List Row :=
  fractionAccumulateHalf (stem ++ ".q") 0x00 acc false ++
    fractionAccumulateHalf (stem ++ "s.q") 0x20 acc true ++
    fractionRoundHalf (stem ++ "r.q") 0x00 acc false ++
    fractionRoundHalf (stem ++ "rs.q") 0x20 acc true ++
    [.arith 0x1E (stem ++ "r.h") [dc, ed, da, db, halves .ul, index]
        (.halfMultiply .ul acc acc .roundedWide false),
      .arith 0x3E (stem ++ "rs.h") [dc, ed, da, db, halves .ul, index]
        (.halfMultiply .ul acc acc .roundedWide true)]

/-- Products and multiply-accumulate. -/
def multiply : List Group :=
  [⟨0x03, .rrr2, multiplyAddRows⟩,
    ⟨0x13, .rcr, multiplyAddConstantRows⟩,
    ⟨0x23, .rrr2, multiplySubRows⟩,
    ⟨0x33, .rcr, multiplySubConstantRows⟩,
    ⟨0x43, .rrr1, fractionAccumulateRows "madd" .add⟩,
    ⟨0x53, .rc, multiplyConstantRows⟩,
    ⟨0x63, .rrr1, fractionAccumulateRows "msub" .sub⟩,
    ⟨0x73, .rr2, multiplyRows⟩,
    ⟨0x83, .rrr1, packedAccumulateRows "madd" .add .add⟩,
    ⟨0x93, .rr1, fractionRows⟩,
    ⟨0xA3, .rrr1, packedAccumulateRows "msub" .sub .sub⟩,
    ⟨0xB3, .rr1, packedMultiplyRows⟩,
    ⟨0xC3, .rrr1, packedAccumulateRows "maddsu" .add .sub⟩,
    ⟨0xE3, .rrr1, packedAccumulateRows "msubad" .sub .add⟩]

end Tricore.Opcode
