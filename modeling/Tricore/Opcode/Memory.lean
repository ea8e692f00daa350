import Tricore.Opcode.Row

/-!
# Memory

32-bit encodings that access memory.
-/

namespace Tricore.Opcode

open OperandKind

def base : OperandKind := .based .plain
def post : OperandKind := .based .postIncrement
def pre : OperandKind := .based .preIncrement
def reversed : OperandKind := .based .bitReverse
def circ : OperandKind := .based .circular

/-- Narrow loads from an absolute address. -/
def absoluteLoadRows : List Row :=
  [.plain 0x00 "ld.b" [da, absolute] (.load .byte),
    .plain 0x01 "ld.bu" [da, absolute] (.load .byteU),
    .plain 0x02 "ld.h" [da, absolute] (.load .half),
    .plain 0x03 "ld.hu" [da, absolute] (.load .halfU)]

/-- Loads of words and pairs from an absolute address. -/
def absoluteWideLoadRows : List Row :=
  [.plain 0x00 "ld.w" [da, absolute] (.load .word),
    .plain 0x01 "ld.d" [ea, absolute] (.load .double),
    .plain 0x02 "ld.a" [aa, absolute] (.load .address),
    .plain 0x03 "ld.da" [pa, absolute] (.load .addressPair)]

/-- Stores of words and pairs to an absolute address. -/
def absoluteStoreRows : List Row :=
  [.plain 0x00 "st.w" [absolute, da] (.store .word),
    .plain 0x01 "st.d" [absolute, ea] (.store .double),
    .plain 0x02 "st.a" [absolute, aa] (.store .address),
    .plain 0x03 "st.da" [absolute, pa] (.store .addressPair)]

/-- Narrow stores to an absolute address. -/
def absoluteNarrowStoreRows : List Row :=
  [.plain 0x00 "st.b" [absolute, da] (.store .byte),
    .plain 0x02 "st.h" [absolute, da] (.store .half)]

/-- Contexts at an absolute address. -/
def absoluteContextRows : List Row :=
  [.plain 0x00 "stlcx" [absolute] (.context .storeLowerContext),
    .plain 0x01 "stucx" [absolute] (.context .storeUpperContext),
    .plain 0x02 "ldlcx" [absolute] (.context .loadLowerContext),
    .plain 0x03 "lducx" [absolute] (.context .loadUpperContext)]

/-- Read-modify-write at an absolute address. -/
def absoluteSwapRows : List Row :=
  [.plain 0x00 "swap.w" [absolute, da] .swap,
    .plain 0x01 "ldmst" [absolute, ea] .loadModifyStore]

/-- Loads relative to a base register. -/
def loadRows : List Row :=
  [.plain 0x00 "ld.b" [da, post] (.load .byte),
    .plain 0x10 "ld.b" [da, pre] (.load .byte),
    .plain 0x20 "ld.b" [da, base] (.load .byte),
    .plain 0x01 "ld.bu" [da, post] (.load .byteU),
    .plain 0x11 "ld.bu" [da, pre] (.load .byteU),
    .plain 0x21 "ld.bu" [da, base] (.load .byteU),
    .plain 0x02 "ld.h" [da, post] (.load .half),
    .plain 0x12 "ld.h" [da, pre] (.load .half),
    .plain 0x22 "ld.h" [da, base] (.load .half),
    .plain 0x03 "ld.hu" [da, post] (.load .halfU),
    .plain 0x13 "ld.hu" [da, pre] (.load .halfU),
    .plain 0x23 "ld.hu" [da, base] (.load .halfU),
    .plain 0x04 "ld.w" [da, post] (.load .word),
    .plain 0x14 "ld.w" [da, pre] (.load .word),
    .plain 0x24 "ld.w" [da, base] (.load .word),
    .plain 0x05 "ld.d" [ea, post] (.load .double),
    .plain 0x15 "ld.d" [ea, pre] (.load .double),
    .plain 0x25 "ld.d" [ea, base] (.load .double),
    .plain 0x06 "ld.a" [aa, post] (.load .address),
    .plain 0x16 "ld.a" [aa, pre] (.load .address),
    .plain 0x26 "ld.a" [aa, base] (.load .address),
    .plain 0x07 "ld.da" [pa, post] (.load .addressPair),
    .plain 0x17 "ld.da" [pa, pre] (.load .addressPair),
    .plain 0x27 "ld.da" [pa, base] (.load .addressPair),
    .plain 0x08 "ld.q" [da, post] (.load .fraction),
    .plain 0x18 "ld.q" [da, pre] (.load .fraction),
    .plain 0x28 "ld.q" [da, base] (.load .fraction)]

/-- Loads from bit-reversed and circular buffers. -/
def bufferLoadRows : List Row :=
  [.plain 0x00 "ld.b" [da, reversed] (.load .byte),
    .plain 0x10 "ld.b" [da, circ] (.load .byte),
    .plain 0x01 "ld.bu" [da, reversed] (.load .byteU),
    .plain 0x11 "ld.bu" [da, circ] (.load .byteU),
    .plain 0x02 "ld.h" [da, reversed] (.load .half),
    .plain 0x12 "ld.h" [da, circ] (.load .half),
    .plain 0x03 "ld.hu" [da, reversed] (.load .halfU),
    .plain 0x13 "ld.hu" [da, circ] (.load .halfU),
    .plain 0x04 "ld.w" [da, reversed] (.load .word),
    .plain 0x14 "ld.w" [da, circ] (.load .word),
    .plain 0x05 "ld.d" [ea, reversed] (.load .double),
    .plain 0x15 "ld.d" [ea, circ] (.load .double),
    .plain 0x06 "ld.a" [aa, reversed] (.load .address),
    .plain 0x16 "ld.a" [aa, circ] (.load .address),
    .plain 0x07 "ld.da" [pa, reversed] (.load .addressPair),
    .plain 0x17 "ld.da" [pa, circ] (.load .addressPair),
    .plain 0x08 "ld.q" [da, reversed] (.load .fraction),
    .plain 0x18 "ld.q" [da, circ] (.load .fraction)]

/-- Stores and cache operations relative to a base register. -/
def storeRows : List Row :=
  [.plain 0x00 "st.b" [post, da] (.store .byte),
    .plain 0x10 "st.b" [pre, da] (.store .byte),
    .plain 0x20 "st.b" [base, da] (.store .byte),
    .plain 0x02 "st.h" [post, da] (.store .half),
    .plain 0x12 "st.h" [pre, da] (.store .half),
    .plain 0x22 "st.h" [base, da] (.store .half),
    .plain 0x04 "st.w" [post, da] (.store .word),
    .plain 0x14 "st.w" [pre, da] (.store .word),
    .plain 0x24 "st.w" [base, da] (.store .word),
    .plain 0x05 "st.d" [post, ea] (.store .double),
    .plain 0x15 "st.d" [pre, ea] (.store .double),
    .plain 0x25 "st.d" [base, ea] (.store .double),
    .plain 0x06 "st.a" [post, aa] (.store .address),
    .plain 0x16 "st.a" [pre, aa] (.store .address),
    .plain 0x26 "st.a" [base, aa] (.store .address),
    .plain 0x07 "st.da" [post, pa] (.store .addressPair),
    .plain 0x17 "st.da" [pre, pa] (.store .addressPair),
    .plain 0x27 "st.da" [base, pa] (.store .addressPair),
    .plain 0x08 "st.q" [post, da] (.store .fraction),
    .plain 0x18 "st.q" [pre, da] (.store .fraction),
    .plain 0x28 "st.q" [base, da] (.store .fraction),
    .plain 0x0C "cachea.w" [post] (.cache .cacheWriteback),
    .plain 0x1C "cachea.w" [pre] (.cache .cacheWriteback),
    .plain 0x2C "cachea.w" [base] (.cache .cacheWriteback),
    .plain 0x0D "cachea.wi" [post] (.cache .cacheWritebackInvalidate),
    .plain 0x1D "cachea.wi" [pre] (.cache .cacheWritebackInvalidate),
    .plain 0x2D "cachea.wi" [base] (.cache .cacheWritebackInvalidate),
    .plain 0x0E "cachea.i" [post] (.cache .cacheInvalidate),
    .plain 0x1E "cachea.i" [pre] (.cache .cacheInvalidate),
    .plain 0x2E "cachea.i" [base] (.cache .cacheInvalidate)]

/-- Stores and cache operations on bit-reversed and circular buffers. -/
def bufferStoreRows : List Row :=
  [.plain 0x00 "st.b" [reversed, da] (.store .byte),
    .plain 0x10 "st.b" [circ, da] (.store .byte),
    .plain 0x02 "st.h" [reversed, da] (.store .half),
    .plain 0x12 "st.h" [circ, da] (.store .half),
    .plain 0x04 "st.w" [reversed, da] (.store .word),
    .plain 0x14 "st.w" [circ, da] (.store .word),
    .plain 0x05 "st.d" [reversed, ea] (.store .double),
    .plain 0x15 "st.d" [circ, ea] (.store .double),
    .plain 0x06 "st.a" [reversed, aa] (.store .address),
    .plain 0x16 "st.a" [circ, aa] (.store .address),
    .plain 0x07 "st.da" [reversed, pa] (.store .addressPair),
    .plain 0x17 "st.da" [circ, pa] (.store .addressPair),
    .plain 0x08 "st.q" [reversed, da] (.store .fraction),
    .plain 0x18 "st.q" [circ, da] (.store .fraction),
    .plain 0x0C "cachea.w" [reversed] (.cache .cacheWriteback),
    .plain 0x1C "cachea.w" [circ] (.cache .cacheWriteback),
    .plain 0x0D "cachea.wi" [reversed] (.cache .cacheWritebackInvalidate),
    .plain 0x1D "cachea.wi" [circ] (.cache .cacheWritebackInvalidate),
    .plain 0x0E "cachea.i" [reversed] (.cache .cacheInvalidate),
    .plain 0x1E "cachea.i" [circ] (.cache .cacheInvalidate)]

/-- Read-modify-write, contexts and address loads relative to a base register. -/
def swapRows : List Row :=
  [.plain 0x00 "swap.w" [post, da] .swap,
    .plain 0x10 "swap.w" [pre, da] .swap,
    .plain 0x20 "swap.w" [base, da] .swap,
    .plain 0x01 "ldmst" [post, ea] .loadModifyStore,
    .plain 0x11 "ldmst" [pre, ea] .loadModifyStore,
    .plain 0x21 "ldmst" [base, ea] .loadModifyStore,
    .late (.plain 0x02 "swapmsk.w" [post, ea] .swapMasked),
    .late (.plain 0x12 "swapmsk.w" [pre, ea] .swapMasked),
    .late (.plain 0x22 "swapmsk.w" [base, ea] .swapMasked),
    .late (.plain 0x03 "cmpswap.w" [post, ea] .compareSwap),
    .late (.plain 0x13 "cmpswap.w" [pre, ea] .compareSwap),
    .late (.plain 0x23 "cmpswap.w" [base, ea] .compareSwap),
    .plain 0x24 "ldlcx" [base] (.context .loadLowerContext),
    .plain 0x25 "lducx" [base] (.context .loadUpperContext),
    .plain 0x26 "stlcx" [base] (.context .storeLowerContext),
    .plain 0x27 "stucx" [base] (.context .storeUpperContext),
    .plain 0x28 "lea" [aa, base] .loadAddress]

/-- Read-modify-write on bit-reversed and circular buffers. -/
def bufferSwapRows : List Row :=
  [.plain 0x00 "swap.w" [reversed, da] .swap,
    .plain 0x10 "swap.w" [circ, da] .swap,
    .plain 0x01 "ldmst" [reversed, ea] .loadModifyStore,
    .plain 0x11 "ldmst" [circ, ea] .loadModifyStore,
    .late (.plain 0x02 "swapmsk.w" [reversed, ea] .swapMasked),
    .late (.plain 0x12 "swapmsk.w" [circ, ea] .swapMasked),
    .late (.plain 0x03 "cmpswap.w" [reversed, ea] .compareSwap),
    .late (.plain 0x13 "cmpswap.w" [circ, ea] .compareSwap)]

/-- Loads, stores, read-modify-write, contexts and caches. -/
def memory : List Group :=
  [⟨0x05, .abs, absoluteLoadRows⟩,
    ⟨0x09, .bo, loadRows⟩,
    ⟨0x15, .abs, absoluteContextRows⟩,
    ⟨0x19, .bol, [.plain 0x00 "ld.w" [da, basedLong] (.load .word)]⟩,
    ⟨0x25, .abs, absoluteNarrowStoreRows⟩,
    ⟨0x29, .bo, bufferLoadRows⟩,
    ⟨0x39, .bol, [.late (.plain 0x00 "ld.bu" [da, basedLong] (.load .byteU))]⟩,
    ⟨0x45, .abs, [.plain 0x00 "ld.q" [da, absolute] (.load .fraction)]⟩,
    ⟨0x49, .bo, swapRows⟩,
    ⟨0x59, .bol, [.plain 0x00 "st.w" [basedLong, da] (.store .word)]⟩,
    ⟨0x65, .abs, [.plain 0x00 "st.q" [absolute, da] (.store .fraction)]⟩,
    ⟨0x69, .bo, bufferSwapRows⟩,
    ⟨0x79, .bol, [.late (.plain 0x00 "ld.b" [da, basedLong] (.load .byte))]⟩,
    ⟨0x85, .abs, absoluteWideLoadRows⟩,
    ⟨0x89, .bo, storeRows⟩,
    ⟨0x99, .bol, [.plain 0x00 "ld.a" [aa, basedLong] (.load .address)]⟩,
    ⟨0xA5, .abs, absoluteStoreRows⟩,
    ⟨0xA9, .bo, bufferStoreRows⟩,
    ⟨0xB5, .bol, [.late (.plain 0x00 "st.a" [basedLong, aa] (.store .address))]⟩,
    ⟨0xB9, .bol, [.late (.plain 0x00 "ld.hu" [da, basedLong] (.load .halfU))]⟩,
    ⟨0xC5, .abs, [.plain 0x00 "lea" [aa, absolute] .loadAddress]⟩,
    ⟨0xC9, .bol, [.late (.plain 0x00 "ld.h" [da, basedLong] (.load .half))]⟩,
    ⟨0xD5, .absb, [.plain 0x00 "st.t" [absolute, position, bit] .storeBit]⟩,
    ⟨0xD9, .bol, [.plain 0x00 "lea" [aa, basedLong] .loadAddress]⟩,
    ⟨0xE5, .abs, absoluteSwapRows⟩,
    ⟨0xE9, .bol, [.late (.plain 0x00 "st.b" [basedLong, da] (.store .byte))]⟩,
    ⟨0xF9, .bol, [.late (.plain 0x00 "st.h" [basedLong, da] (.store .half))]⟩]

end Tricore.Opcode
