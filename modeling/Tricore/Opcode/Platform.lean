import Tricore.Opcode.Row

/-!
# Core control

32-bit encodings that control the core: returns, interrupts, barriers, traps, special function
registers and address mapping.
-/

namespace Tricore.Opcode

open OperandKind

/-- Returns, interrupt control, barriers and traps. -/
def systemRows : List Row :=
  [.plain 0x00 "nop" [] .nop,
    .late (.plain 0x03 "fret" [] .fastRet),
    .plain 0x04 "debug" [] (.platform .breakpoint),
    .plain 0x06 "ret" [] .ret,
    .plain 0x07 "rfe" [] .retException,
    .plain 0x08 "svlcx" [] (.platform .saveLowerContext),
    .plain 0x09 "rslcx" [] (.platform .restoreLowerContext),
    .plain 0x0C "enable" [] (.platform .enableInterrupts),
    .plain 0x0D "disable" [] (.platform .disableInterrupts),
    .late (.plain 0x0E "restore" [da] (.platform .restoreInterrupts)),
    .late (.plain 0x0F "disable" [da] (.platform .disableInterruptsSaving)),
    .plain 0x12 "dsync" [] (.platform .dsync),
    .plain 0x13 "isync" [] (.platform .isync),
    .plain 0x14 "trapv" [] (.trapOn .v),
    .plain 0x15 "trapsv" [] (.trapOn .sv),
    .late (.plain 0x16 "wait" [] (.platform .wait))]

/-- Address mapping. -/
def mappingRows : List Row :=
  [.plain 0x00 "tlbdemap" [da] (.platform .tlbDemap),
    .plain 0x04 "tlbflush.a" [] (.platform .tlbFlushA),
    .plain 0x05 "tlbflush.b" [] (.platform .tlbFlushB),
    .plain 0x08 "tlbprobe.a" [da] (.platform .tlbProbeA),
    .plain 0x09 "tlbprobe.i" [da] (.platform .tlbProbeI),
    .plain 0x40 "tlbmap" [ea] (.platform .tlbMap)]

/-- Core control. -/
def platform : List Group :=
  [⟨0x0D, .sys, systemRows⟩,
    ⟨0x4D, .rlc, [.plain 0x00 "mfcr" [dc, csfr] .readCsfr]⟩,
    ⟨0x75, .rr, mappingRows⟩,
    ⟨0x8D, .sys, [.plain 0x05 "rfm" [] .retMonitor]⟩,
    ⟨0xAD, .rc,
      [.plain 0x00 "bisr" [unsigned] (.platform .bisr),
       .plain 0x04 "syscall" [unsigned] (.platform .syscall)]⟩,
    ⟨0xCD, .rlc, [.plain 0x00 "mtcr" [csfr, da] .writeCsfr]⟩]

end Tricore.Opcode
