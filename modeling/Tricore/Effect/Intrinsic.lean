/-!
# Intrinsics

Calls into the platform that the effect language does not spell out: context and cache operations,
address mapping, interrupt control, special function registers, and the bit and byte
manipulations that have no short expression.
-/

namespace Tricore

inductive Intrinsic where
  | storeLowerContext
  | storeUpperContext
  | loadLowerContext
  | loadUpperContext
  | saveLowerContext
  | restoreLowerContext
  | saveUpperContext
  | restoreUpperContext
  | cacheWriteback
  | cacheWritebackInvalidate
  | cacheInvalidate
  | shuffle
  | bmerge
  | parity
  | crc32
  | unpack
  | bsplit
  | pack
  | crcn
  | ixmin
  | ixminU
  | ixmax
  | ixmaxU
  | dvadj
  | dvstepU
  | dvstep
  | tlbDemap
  | tlbFlushA
  | tlbFlushB
  | tlbProbeA
  | tlbProbeI
  | tlbMap
  | breakpoint
  | enableInterrupts
  | disableInterrupts
  | restoreInterrupts
  | disableInterruptsSaving
  | dsync
  | isync
  | wait
  | bisr
  | syscall
  | overflowTrap
  | mfcr
  | mtcr
  | bitReverseStep
  | restoreDebug
  deriving DecidableEq, Repr, Inhabited

namespace Intrinsic

def all : List Intrinsic :=
  [storeLowerContext, storeUpperContext, loadLowerContext, loadUpperContext, saveLowerContext,
    restoreLowerContext, saveUpperContext, restoreUpperContext, cacheWriteback,
    cacheWritebackInvalidate, cacheInvalidate, shuffle, bmerge, parity, crc32, unpack, bsplit,
    pack, crcn, ixmin, ixminU, ixmax, ixmaxU, dvadj, dvstepU, dvstep, tlbDemap, tlbFlushA,
    tlbFlushB, tlbProbeA, tlbProbeI, tlbMap, breakpoint, enableInterrupts, disableInterrupts,
    restoreInterrupts, disableInterruptsSaving, dsync, isync, wait, bisr, syscall, overflowTrap,
    mfcr, mtcr, bitReverseStep, restoreDebug]

/-- The name in printed effects. -/
def name : Intrinsic → String
  | storeLowerContext => "store_lower_context"
  | storeUpperContext => "store_upper_context"
  | loadLowerContext => "load_lower_context"
  | loadUpperContext => "load_upper_context"
  | saveLowerContext => "save_lower_context"
  | restoreLowerContext => "restore_lower_context"
  | saveUpperContext => "save_upper_context"
  | restoreUpperContext => "restore_upper_context"
  | cacheWriteback => "cache_writeback"
  | cacheWritebackInvalidate => "cache_writeback_invalidate"
  | cacheInvalidate => "cache_invalidate"
  | shuffle => "shuffle"
  | bmerge => "bmerge"
  | parity => "parity"
  | crc32 => "crc32"
  | unpack => "unpack"
  | bsplit => "bsplit"
  | pack => "pack"
  | crcn => "crcn"
  | ixmin => "ixmin"
  | ixminU => "ixmin_u"
  | ixmax => "ixmax"
  | ixmaxU => "ixmax_u"
  | dvadj => "dvadj"
  | dvstepU => "dvstep_u"
  | dvstep => "dvstep"
  | tlbDemap => "tlb_demap"
  | tlbFlushA => "tlb_flush_a"
  | tlbFlushB => "tlb_flush_b"
  | tlbProbeA => "tlb_probe_a"
  | tlbProbeI => "tlb_probe_i"
  | tlbMap => "tlb_map"
  | breakpoint => "debug"
  | enableInterrupts => "enable_interrupts"
  | disableInterrupts => "disable_interrupts"
  | restoreInterrupts => "restore_interrupts"
  | disableInterruptsSaving => "disable_interrupts_save"
  | dsync => "dsync"
  | isync => "isync"
  | wait => "wait"
  | bisr => "bisr"
  | syscall => "syscall"
  | overflowTrap => "trap"
  | mfcr => "mfcr"
  | mtcr => "mtcr"
  | bitReverseStep => "bit_reverse_step"
  | restoreDebug => "restore_debug"

/-- The name in exported data. -/
def tag : Intrinsic → String
  | storeLowerContext => "StoreLowerContext"
  | storeUpperContext => "StoreUpperContext"
  | loadLowerContext => "LoadLowerContext"
  | loadUpperContext => "LoadUpperContext"
  | saveLowerContext => "SaveLowerContext"
  | restoreLowerContext => "RestoreLowerContext"
  | saveUpperContext => "SaveUpperContext"
  | restoreUpperContext => "RestoreUpperContext"
  | cacheWriteback => "CacheWriteback"
  | cacheWritebackInvalidate => "CacheWritebackInvalidate"
  | cacheInvalidate => "CacheInvalidate"
  | shuffle => "Shuffle"
  | bmerge => "Bmerge"
  | parity => "Parity"
  | crc32 => "Crc32"
  | unpack => "Unpack"
  | bsplit => "Bsplit"
  | pack => "Pack"
  | crcn => "Crcn"
  | ixmin => "Ixmin"
  | ixminU => "IxminU"
  | ixmax => "Ixmax"
  | ixmaxU => "IxmaxU"
  | dvadj => "Dvadj"
  | dvstepU => "DvstepU"
  | dvstep => "Dvstep"
  | tlbDemap => "TlbDemap"
  | tlbFlushA => "TlbFlushA"
  | tlbFlushB => "TlbFlushB"
  | tlbProbeA => "TlbProbeA"
  | tlbProbeI => "TlbProbeI"
  | tlbMap => "TlbMap"
  | breakpoint => "Debug"
  | enableInterrupts => "Enable"
  | disableInterrupts => "Disable"
  | restoreInterrupts => "Restore"
  | disableInterruptsSaving => "DisableSave"
  | dsync => "Dsync"
  | isync => "Isync"
  | wait => "Wait"
  | bisr => "Bisr"
  | syscall => "Syscall"
  | overflowTrap => "Trap"
  | mfcr => "Mfcr"
  | mtcr => "Mtcr"
  | bitReverseStep => "BitReverseStep"
  | restoreDebug => "RestoreDebug"

def ofTag? (text : String) : Option Intrinsic := all.find? (·.tag == text)

end Intrinsic

end Tricore
