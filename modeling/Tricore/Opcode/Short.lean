import Tricore.Opcode.Row

/-!
# The 16-bit encodings

Of the 16-bit formats only `sr` has a secondary opcode; the other groups have one row each.
-/

namespace Tricore.Opcode

open OperandKind

/-- All 16-bit encodings. -/
def short : List Group :=
  [⟨0x00, .sr,
      [.plain 0x00 "nop" [] .nop,
       .late (.plain 0x07 "fret" [] .fastRet),
       .plain 0x08 "rfe" [] .retException,
       .plain 0x09 "ret" [] .ret,
       .plain 0x0A "debug" [] (.platform .breakpoint)]⟩,
    ⟨0x02, .srr, [.plain 0x00 "mov" [da, db] .move]⟩,
    ⟨0x04, .slr, [.plain 0x00 "ld.bu" [da, indirectPost 1] (.load .byteU)]⟩,
    ⟨0x06, .src, [.plain 0x00 "sh" [da, signed 4] (.shift .logical)]⟩,
    ⟨0x08, .slro, [.plain 0x00 "ld.bu" [da, scaledA15 1] (.load .byteU)]⟩,
    ⟨0x0C, .sro, [.plain 0x00 "ld.bu" [d15, scaled 1] (.load .byteU)]⟩,
    ⟨0x0E, .sbr, [.plain 0x00 "jltz" [db, rel] (.branch .lt)]⟩,
    ⟨0x10, .srrs, [.plain 0x00 "addsc.a" [aa, ab, d15, index] .addScaled]⟩,
    ⟨0x12, .srr, [.arith 0x00 "add" [da, d15, db] .add]⟩,
    ⟨0x14, .slr, [.plain 0x00 "ld.bu" [da, indirect] (.load .byteU)]⟩,
    ⟨0x16, .sc, [.plain 0x00 "and" [d15, unsigned] (.logic .and)]⟩,
    ⟨0x1A, .srr, [.arith 0x00 "add" [d15, da, db] .add]⟩,
    ⟨0x1E, .sbc, [.plain 0x00 "jeq" [d15, signed 4, rel] (.branch .eq)]⟩,
    ⟨0x20, .sc, [.plain 0x00 "sub.a" [a10, unsigned] .sub]⟩,
    ⟨0x22, .srr, [.arith 0x00 "adds" [da, db] (.addSat .signed)]⟩,
    ⟨0x24, .ssr, [.plain 0x00 "st.b" [indirectPost 1, da] (.store .byte)]⟩,
    ⟨0x26, .srr, [.plain 0x00 "and" [da, db] (.logic .and)]⟩,
    ⟨0x28, .ssro, [.plain 0x00 "st.b" [scaledA15 1, da] (.store .byte)]⟩,
    ⟨0x2A, .srr, [.plain 0x00 "cmov" [da, d15, db] (.condMove false)]⟩,
    ⟨0x2C, .sro, [.plain 0x00 "st.b" [scaled 1, d15] (.store .byte)]⟩,
    ⟨0x2E, .sbrn, [.plain 0x00 "jz.t" [d15, index, rel] (.branchBit false)]⟩,
    ⟨0x30, .srr, [.plain 0x00 "add.a" [aa, ab] .add]⟩,
    ⟨0x32, .sr,
      [.plain 0x00 "sat.b" [da] (.saturate .byte .signed),
       .plain 0x01 "sat.bu" [da] (.saturate .byte .unsigned),
       .plain 0x02 "sat.h" [da] (.saturate .half .signed),
       .plain 0x03 "sat.hu" [da] (.saturate .half .unsigned),
       .arith 0x05 "rsub" [da] .rsub]⟩,
    ⟨0x34, .ssr, [.plain 0x00 "st.b" [indirect, da] (.store .byte)]⟩,
    ⟨0x3A, .srr, [.plain 0x00 "eq" [d15, da, db] (.compare .eq)]⟩,
    ⟨0x3C, .sb, [.plain 0x00 "j" [rel] .jump]⟩,
    ⟨0x3E, .sbr, [.plain 0x00 "jeq" [d15, db, rel] (.branch .eq)]⟩,
    ⟨0x40, .srr, [.plain 0x00 "mov.aa" [aa, ab] .move]⟩,
    ⟨0x42, .srr, [.arith 0x00 "add" [da, db] .add]⟩,
    ⟨0x44, .slr, [.plain 0x00 "ld.w" [da, indirectPost 4] (.load .word)]⟩,
    ⟨0x46, .sr, [.plain 0x00 "not" [da] .complement]⟩,
    ⟨0x48, .slro, [.plain 0x00 "ld.w" [da, scaledA15 4] (.load .word)]⟩,
    ⟨0x4C, .sro, [.plain 0x00 "ld.w" [d15, scaled 4] (.load .word)]⟩,
    ⟨0x4E, .sbr, [.plain 0x00 "jgtz" [db, rel] (.branch .gt)]⟩,
    ⟨0x52, .srr, [.arith 0x00 "sub" [da, d15, db] .sub]⟩,
    ⟨0x54, .slr, [.plain 0x00 "ld.w" [da, indirect] (.load .word)]⟩,
    ⟨0x58, .sc, [.plain 0x00 "ld.w" [d15, stackSlot] (.load .word)]⟩,
    ⟨0x5A, .srr, [.arith 0x00 "sub" [d15, da, db] .sub]⟩,
    ⟨0x5C, .sb, [.plain 0x00 "call" [rel] .call]⟩,
    ⟨0x5E, .sbc, [.plain 0x00 "jne" [d15, signed 4, rel] (.branch .ne)]⟩,
    ⟨0x60, .srr, [.plain 0x00 "mov.a" [aa, db] .move]⟩,
    ⟨0x62, .srr, [.arith 0x00 "subs" [da, db] (.subSat .signed)]⟩,
    ⟨0x64, .ssr, [.plain 0x00 "st.w" [indirectPost 4, da] (.store .word)]⟩,
    ⟨0x68, .ssro, [.plain 0x00 "st.w" [scaledA15 4, da] (.store .word)]⟩,
    ⟨0x6A, .srr, [.plain 0x00 "cmovn" [da, d15, db] (.condMove true)]⟩,
    ⟨0x6C, .sro, [.plain 0x00 "st.w" [scaled 4, d15] (.store .word)]⟩,
    ⟨0x6E, .sb, [.plain 0x00 "jz" [d15, rel] (.branch .eq)]⟩,
    ⟨0x74, .ssr, [.plain 0x00 "st.w" [indirect, da] (.store .word)]⟩,
    ⟨0x76, .sbr, [.plain 0x00 "jz" [db, rel] (.branch .eq)]⟩,
    ⟨0x78, .sc, [.plain 0x00 "st.w" [stackSlot, d15] (.store .word)]⟩,
    ⟨0x7A, .srr, [.plain 0x00 "lt" [d15, da, db] (.compare .lt)]⟩,
    ⟨0x7C, .sbr, [.plain 0x00 "jnz.a" [ab, rel] (.branch .ne)]⟩,
    ⟨0x7E, .sbr, [.plain 0x00 "jne" [d15, db, rel] (.branch .ne)]⟩,
    ⟨0x80, .srr, [.plain 0x00 "mov.d" [da, ab] .move]⟩,
    ⟨0x82, .src, [.plain 0x00 "mov" [da, signed 4] .move]⟩,
    ⟨0x84, .slr, [.plain 0x00 "ld.h" [da, indirectPost 2] (.load .half)]⟩,
    ⟨0x86, .src, [.flagged .carryOverflows 0x00 "sha" [da, signed 4] (.shift .arithmetic)]⟩,
    ⟨0x88, .slro, [.plain 0x00 "ld.h" [da, scaledA15 2] (.load .half)]⟩,
    ⟨0x8A, .src, [.arith 0x00 "cadd" [da, d15, signed 4] (.condArith false false)]⟩,
    ⟨0x8C, .sro, [.plain 0x00 "ld.h" [d15, scaled 2] (.load .half)]⟩,
    ⟨0x8E, .sbr, [.plain 0x00 "jlez" [db, rel] (.branch .le)]⟩,
    ⟨0x92, .src, [.arith 0x00 "add" [da, d15, signed 4] .add]⟩,
    ⟨0x94, .slr, [.plain 0x00 "ld.h" [da, indirect] (.load .half)]⟩,
    ⟨0x96, .sc, [.plain 0x00 "or" [d15, unsigned] (.logic .or)]⟩,
    ⟨0x9A, .src, [.arith 0x00 "add" [d15, da, signed 4] .add]⟩,
    ⟨0x9E, .sbc, [.late (.plain 0x00 "jeq" [d15, signed 4, relFar] (.branch .eq))]⟩,
    ⟨0xA0, .src, [.plain 0x00 "mov.a" [aa, unsigned] .move]⟩,
    ⟨0xA2, .srr, [.arith 0x00 "sub" [da, db] .sub]⟩,
    ⟨0xA4, .ssr, [.plain 0x00 "st.h" [indirectPost 2, da] (.store .half)]⟩,
    ⟨0xA6, .srr, [.plain 0x00 "or" [da, db] (.logic .or)]⟩,
    ⟨0xA8, .ssro, [.plain 0x00 "st.h" [scaledA15 2, da] (.store .half)]⟩,
    ⟨0xAA, .src, [.plain 0x00 "cmov" [da, d15, signed 4] (.condMove false)]⟩,
    ⟨0xAC, .sro, [.plain 0x00 "st.h" [scaled 2, d15] (.store .half)]⟩,
    ⟨0xAE, .sbrn, [.plain 0x00 "jnz.t" [d15, index, rel] (.branchBit true)]⟩,
    ⟨0xB0, .src, [.plain 0x00 "add.a" [aa, signed 4] .add]⟩,
    ⟨0xB4, .ssr, [.plain 0x00 "st.h" [indirect, da] (.store .half)]⟩,
    ⟨0xBA, .src, [.plain 0x00 "eq" [d15, da, signed 4] (.compare .eq)]⟩,
    ⟨0xBC, .sbr, [.plain 0x00 "jz.a" [ab, rel] (.branch .eq)]⟩,
    ⟨0xBE, .sbr, [.late (.plain 0x00 "jeq" [d15, db, relFar] (.branch .eq))]⟩,
    ⟨0xC2, .src, [.arith 0x00 "add" [da, signed 4] .add]⟩,
    ⟨0xC4, .slr, [.plain 0x00 "ld.a" [aa, indirectPost 4] (.load .address)]⟩,
    ⟨0xC6, .srr, [.plain 0x00 "xor" [da, db] (.logic .xor)]⟩,
    ⟨0xC8, .slro, [.plain 0x00 "ld.a" [aa, scaledA15 4] (.load .address)]⟩,
    ⟨0xCA, .src, [.arith 0x00 "caddn" [da, d15, signed 4] (.condArith false true)]⟩,
    ⟨0xCC, .sro, [.plain 0x00 "ld.a" [a15, scaled 4] (.load .address)]⟩,
    ⟨0xCE, .sbr, [.plain 0x00 "jgez" [db, rel] (.branch .ge)]⟩,
    ⟨0xD2, .src, [.late (.plain 0x00 "mov" [ea, signed 4] .move)]⟩,
    ⟨0xD4, .slr, [.plain 0x00 "ld.a" [aa, indirect] (.load .address)]⟩,
    ⟨0xD8, .sc, [.plain 0x00 "ld.a" [a15, stackSlot] (.load .address)]⟩,
    ⟨0xDA, .sc, [.plain 0x00 "mov" [d15, unsigned] .move]⟩,
    ⟨0xDC, .sr, [.plain 0x00 "ji" [aa] .jumpIndirect]⟩,
    ⟨0xDE, .sbc, [.late (.plain 0x00 "jne" [d15, signed 4, relFar] (.branch .ne))]⟩,
    ⟨0xE0, .sc, [.plain 0x00 "bisr" [unsigned] (.platform .bisr)]⟩,
    ⟨0xE2, .srr, [.arith 0x00 "mul" [da, db] (.multiply .signed false false)]⟩,
    ⟨0xE4, .ssr, [.plain 0x00 "st.a" [indirectPost 4, aa] (.store .address)]⟩,
    ⟨0xE8, .ssro, [.plain 0x00 "st.a" [scaledA15 4, aa] (.store .address)]⟩,
    ⟨0xEA, .src, [.plain 0x00 "cmovn" [da, d15, signed 4] (.condMove true)]⟩,
    ⟨0xEC, .sro, [.plain 0x00 "st.a" [scaled 4, a15] (.store .address)]⟩,
    ⟨0xEE, .sb, [.plain 0x00 "jnz" [d15, rel] (.branch .ne)]⟩,
    ⟨0xF4, .ssr, [.plain 0x00 "st.a" [indirect, aa] (.store .address)]⟩,
    ⟨0xF6, .sbr, [.plain 0x00 "jnz" [db, rel] (.branch .ne)]⟩,
    ⟨0xF8, .sc, [.plain 0x00 "st.a" [stackSlot, a15] (.store .address)]⟩,
    ⟨0xFA, .src, [.plain 0x00 "lt" [d15, da, signed 4] (.compare .lt)]⟩,
    ⟨0xFC, .sbr, [.plain 0x00 "loop" [ab, target .loopBack] .loop]⟩,
    ⟨0xFE, .sbr, [.late (.plain 0x00 "jne" [d15, db, relFar] (.branch .ne))]⟩]

end Tricore.Opcode
