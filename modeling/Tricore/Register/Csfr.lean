import Tricore.Width

/-!
# Core special function registers

Core special function registers (CSFRs) are addressed by a 16-bit offset. `Csfr.table` names the
offsets that have a name, grouped by subject.
-/

namespace Tricore.Csfr

/-- Memory management. -/
def memoryManagement : List (BitVec 16 × String) :=
  [(0x8000, "MMU_CON"), (0x8004, "MMU_ASI"), (0x8008, "MMU_TVA"), (0x800C, "MMU_TPA"),
    (0x8010, "MMU_TPX"), (0x8014, "MMU_TFA")]

/-- Memory protection and error reporting. -/
def protection : List (BitVec 16 × String) :=
  [(0x9200, "PSTR"), (0x9400, "COMPAT"), (0x9000, "DSTR"), (0x9010, "DATR"),
    (0x9018, "DEADD"), (0x9020, "DIEAR"), (0x9024, "DIETR"), (0x9040, "DCON0"),
    (0x9044, "DCON1"), (0x9048, "DCON2"), (0x920C, "PCON0"), (0x9204, "PCON1"),
    (0x9208, "PCON2"), (0x9210, "PIEAR"), (0x9214, "PIETR"), (0xE000, "CPXE_0"),
    (0xE004, "CPXE_1"), (0xE008, "CPXE_2"), (0xE00C, "CPXE_3"), (0xE010, "DPRE_0"),
    (0xE014, "DPRE_1"), (0xE018, "DPRE_2"), (0xE01C, "DPRE_3"), (0xE020, "DPWE_0"),
    (0xE024, "DPWE_1"), (0xE028, "DPWE_2"), (0xE02C, "DPWE_3"), (0xE400, "TPS_CON"),
    (0xE404, "TPS_TIMER0"), (0xE408, "TPS_TIMER1"), (0xE40C, "TPS_TIMER2")]

/-- Floating-point trap state. -/
def floatingPoint : List (BitVec 16 × String) :=
  [(0xA000, "FPU_TRAP_CON"), (0xA004, "FPU_TRAP_PC"), (0xA008, "FPU_TRAP_OPC"),
    (0xA010, "FPU_TRAP_SRC1"), (0xA014, "FPU_TRAP_SRC2"), (0xA018, "FPU_TRAP_SRC3")]

/-- Data protection ranges. -/
def dataRanges : List (BitVec 16 × String) :=
  [(0xC000, "DPR0_L"), (0xC004, "DPR0_U"), (0xC008, "DPR1_L"), (0xC00C, "DPR1_U"),
    (0xC010, "DPR2_L"), (0xC014, "DPR2_U"), (0xC018, "DPR3_L"), (0xC01C, "DPR3_U"),
    (0xC020, "DPR4_L"), (0xC024, "DPR4_U"), (0xC028, "DPR5_L"), (0xC02C, "DPR5_U"),
    (0xC030, "DPR6_L"), (0xC034, "DPR6_U"), (0xC038, "DPR7_L"), (0xC03C, "DPR7_U")]

/-- Code protection ranges. -/
def codeRanges : List (BitVec 16 × String) :=
  [(0xD000, "CPR0_L"), (0xD004, "CPR0_U"), (0xD008, "CPR1_L"), (0xD00C, "CPR1_U"),
    (0xD010, "CPR2_L"), (0xD014, "CPR2_U"), (0xD018, "CPR3_L"), (0xD01C, "CPR3_U")]

/-- Performance counters. -/
def counters : List (BitVec 16 × String) :=
  [(0xFC00, "CCTRL"), (0xFC04, "CCNT"), (0xFC08, "ICNT"), (0xFC0C, "M1CNT"),
    (0xFC10, "M2CNT"), (0xFC14, "M3CNT")]

/-- Debug events and triggers. -/
def debugging : List (BitVec 16 × String) :=
  [(0xFD00, "DBGSR"), (0xFD08, "EXEVT"), (0xFD0C, "CREVT"), (0xFD10, "SWEVT"),
    (0xFD20, "TR0EVT"), (0xFD24, "TR0ADR"), (0xFD28, "TR1EVT"), (0xFD2C, "TR1ADR"),
    (0xFD30, "TRIG_ACC"), (0xFD40, "DMS"), (0xFD44, "DCX"), (0xFD48, "DBGTCR")]

/-- Core state. -/
def coreState : List (BitVec 16 × String) :=
  [(0xFE00, "PCXI"), (0xFE04, "PSW"), (0xFE08, "PC"), (0xFE14, "SYSCON"), (0xFE18, "CPU_ID"),
    (0xFE1C, "CORE_ID"), (0xFE20, "BIV"), (0xFE24, "BTV"), (0xFE28, "ISP"), (0xFE2C, "ICR"),
    (0xFE38, "FCX"), (0xFE3C, "LCX")]

/-- Views of the general purpose registers. -/
def generalPurpose : List (BitVec 16 × String) :=
  [(0xFF00, "D0"), (0xFF04, "D1"), (0xFF08, "D2"), (0xFF0C, "D3"), (0xFF10, "D4"),
    (0xFF14, "D5"), (0xFF18, "D6"), (0xFF1C, "D7"), (0xFF20, "D8"), (0xFF24, "D9"),
    (0xFF28, "D10"), (0xFF2C, "D11"), (0xFF30, "D12"), (0xFF34, "D13"), (0xFF38, "D14"),
    (0xFF3C, "D15"), (0xFF80, "A0"), (0xFF84, "A1"), (0xFF88, "A2"), (0xFF8C, "A3"),
    (0xFF90, "A4"), (0xFF94, "A5"), (0xFF98, "A6"), (0xFF9C, "A7"), (0xFFA0, "A8"),
    (0xFFA4, "A9"), (0xFFA8, "A10"), (0xFFAC, "A11"), (0xFFB0, "A12"), (0xFFB4, "A13"),
    (0xFFB8, "A14"), (0xFFBC, "A15")]

def table : List (BitVec 16 × String) :=
  memoryManagement ++ protection ++ floatingPoint ++ dataRanges ++ codeRanges ++
    counters ++ debugging ++ coreState ++ generalPurpose

/-- The name of an offset, in capitals. -/
def name? (offset : BitVec 16) : Option String :=
  (table.find? fun entry => entry.1 == offset).map (·.2)

end Tricore.Csfr
