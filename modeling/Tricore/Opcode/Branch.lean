import Tricore.Opcode.Row

/-!
# Branches

32-bit encodings that move control.
-/

namespace Tricore.Opcode

open OperandKind

/-- Jumps and calls through an address register. -/
def indirectRows : List Row :=
  [.plain 0x00 "calli" [aa] .callIndirect,
    .late (.plain 0x01 "fcalli" [aa] .fastCallIndirect),
    .plain 0x02 "jli" [aa] .jumpLinkIndirect,
    .plain 0x03 "ji" [aa] .jumpIndirect]

/-- Jumps, calls, loops and conditional branches. -/
def branch : List Group :=
  [⟨0x1D, .b, [.plain 0x00 "j" [rel] .jump]⟩,
    ⟨0x1F, .brr,
      [.plain 0x00 "jnei" [da, db, rel] (.branchStep 1),
       .plain 0x01 "jned" [da, db, rel] (.branchStep (-1))]⟩,
    ⟨0x2D, .rr, indirectRows⟩,
    ⟨0x3F, .brr,
      [.plain 0x00 "jlt" [da, db, rel] (.branch .lt),
       .plain 0x01 "jlt.u" [da, db, rel] (.branch .ltU)]⟩,
    ⟨0x5D, .b, [.plain 0x00 "jl" [rel] .jumpLink]⟩,
    ⟨0x5F, .brr,
      [.plain 0x00 "jeq" [da, db, rel] (.branch .eq),
       .plain 0x01 "jne" [da, db, rel] (.branch .ne)]⟩,
    ⟨0x61, .b, [.late (.plain 0x00 "fcall" [rel] .fastCall)]⟩,
    ⟨0x6D, .b, [.plain 0x00 "call" [rel] .call]⟩,
    ⟨0x6F, .brn,
      [.plain 0x00 "jz.t" [da, index, rel] (.branchBit false),
       .plain 0x01 "jnz.t" [da, index, rel] (.branchBit true)]⟩,
    ⟨0x7D, .brr,
      [.plain 0x00 "jeq.a" [aa, ab, rel] (.branch .eq),
       .plain 0x01 "jne.a" [aa, ab, rel] (.branch .ne)]⟩,
    ⟨0x7F, .brr,
      [.plain 0x00 "jge" [da, db, rel] (.branch .ge),
       .plain 0x01 "jge.u" [da, db, rel] (.branch .geU)]⟩,
    ⟨0x9D, .b, [.plain 0x00 "ja" [target .absolute] .jump]⟩,
    ⟨0x9F, .brc,
      [.plain 0x00 "jnei" [da, signed 4, rel] (.branchStep 1),
       .plain 0x01 "jned" [da, signed 4, rel] (.branchStep (-1))]⟩,
    ⟨0xBD, .brr,
      [.plain 0x00 "jz.a" [aa, rel] (.branch .eq),
       .plain 0x01 "jnz.a" [aa, rel] (.branch .ne)]⟩,
    ⟨0xBF, .brc,
      [.plain 0x00 "jlt" [da, signed 4, rel] (.branch .lt),
       .plain 0x01 "jlt.u" [da, unsigned, rel] (.branch .ltU)]⟩,
    ⟨0xDD, .b, [.plain 0x00 "jla" [target .absolute] .jumpLink]⟩,
    ⟨0xDF, .brc,
      [.plain 0x00 "jeq" [da, signed 4, rel] (.branch .eq),
       .plain 0x01 "jne" [da, signed 4, rel] (.branch .ne)]⟩,
    ⟨0xE1, .b, [.late (.plain 0x00 "fcalla" [target .absolute] .fastCall)]⟩,
    ⟨0xED, .b, [.plain 0x00 "calla" [target .absolute] .call]⟩,
    ⟨0xFD, .brr,
      [.plain 0x00 "loop" [ab, rel] .loop,
       .plain 0x01 "loopu" [rel] .loopForever]⟩,
    ⟨0xFF, .brc,
      [.plain 0x00 "jge" [da, signed 4, rel] (.branch .ge),
       .plain 0x01 "jge.u" [da, unsigned, rel] (.branch .geU)]⟩]

end Tricore.Opcode
