import Tricore.Core.Context
import Tricore.Core.Trap
import Tricore.Flag
import Tricore.Isa

/-!
# Core state

The registers of a core and its list of saved contexts. `Core.read` and `Core.write` see every
register by its name: pairs join their halves, and the special function registers that are views of
other registers go to these. Special function registers are zero until they are written.
-/

namespace Tricore

/-- Special function registers with their values, by offset. -/
abbrev CsfrFile := List (BitVec 16 × Word)

namespace CsfrFile

def get (file : CsfrFile) (offset : BitVec 16) : Word := (file.lookup offset).getD 0

def set : CsfrFile → BitVec 16 → Word → CsfrFile
  | [], offset, value => [(offset, value)]
  | (first, old) :: rest, offset, value =>
    if offset < first then (offset, value) :: (first, old) :: rest
    else if offset = first then (offset, value) :: rest
    else (first, old) :: set rest offset value

end CsfrFile

structure Core where
  pc : Address := 0
  psw : Word := 0
  d : Vector Word 16 := .replicate 16 0
  a : Vector Word 16 := .replicate 16 0
  /-- Link to the saved contexts. -/
  pcxi : Word := 0
  csfr : CsfrFile := []
  /-- Saved contexts, most recent first. -/
  frames : List Frame := []
  /-- Temporaries of the instruction that runs, latest first. -/
  temps : List (Register × Value) := []
  isa : Isa := .v16
  deriving DecidableEq, Repr

namespace Core

/-- Offset of the interrupt control register. -/
def icr : BitVec 16 := 0xFE2C

def read (c : Core) (r : Register) : Value :=
  match r.canonical with
  | .d n => (c.d.get (.ofNat 16 n)).setWidth 64
  | .a n => (c.a.get (.ofNat 16 n)).setWidth 64
  | .e n => c.d.get (.ofNat 16 (n + 1)) ++ c.d.get (.ofNat 16 n)
  | .p n => c.a.get (.ofNat 16 (n + 1)) ++ c.a.get (.ofNat 16 n)
  | .psw => c.psw.setWidth 64
  | .pc => c.pc.setWidth 64
  | .pcxi => c.pcxi.setWidth 64
  | .csfr offset => (c.csfr.get offset).setWidth 64
  | .temp n => (c.temps.lookup (.temp n)).getD 0
  | .tempWide n => (c.temps.lookup (.tempWide n)).getD 0

def setD (c : Core) (n : Nat) (v : Word) : Core :=
  { c with d := c.d.set (n % 16) v (Nat.mod_lt n (by decide)) }

def setA (c : Core) (n : Nat) (v : Word) : Core :=
  { c with a := c.a.set (n % 16) v (Nat.mod_lt n (by decide)) }

/-- Write the low bits of a value, as many as the register has. -/
def write (c : Core) (r : Register) (v : Value) : Core :=
  let lo : Word := v.setWidth 32
  let hi : Word := (v >>> 32).setWidth 32
  match r.canonical with
  | .d n => c.setD n lo
  | .a n => c.setA n lo
  | .e n => (c.setD n lo).setD (n + 1) hi
  | .p n => (c.setA n lo).setA (n + 1) hi
  | .psw => { c with psw := lo }
  | .pc => { c with pc := lo }
  | .pcxi => { c with pcxi := lo }
  | .csfr offset => { c with csfr := c.csfr.set offset lo }
  | .temp n => { c with temps := (.temp n, lo.setWidth 64) :: c.temps }
  | .tempWide n => { c with temps := (.tempWide n, v) :: c.temps }

def flag (c : Core) (f : Flag) : Bool := c.psw.getLsbD f.bit

def setFlag (c : Core) (f : Flag) (on : Bool) : Core :=
  let bit := BitVec.twoPow 32 f.bit
  { c with psw := if on then c.psw ||| bit else c.psw &&& ~~~bit }

def interruptsEnabled (c : Core) : Bool := (c.read (.csfr icr)).getLsbD 15

def setInterrupts (c : Core) (on : Bool) : Core :=
  let bit := BitVec.twoPow 64 15
  let old := c.read (.csfr icr)
  c.write (.csfr icr) (if on then old ||| bit else old &&& ~~~bit)

/-- Save a context; the link then counts the saved contexts. -/
def saveContext (c : Core) (kind : ContextKind) : Core :=
  let frames := ⟨kind, kind.layout.map fun r => (c.read r).setWidth 32⟩ :: c.frames
  { c with frames, pcxi := .ofNat 32 frames.length }

/-- Write the words of a context to its registers. -/
def loadContext (c : Core) (kind : ContextKind) (words : Vector Word 16) : Core :=
  (kind.layout.zip words).foldl (fun c (r, w) => c.write r (w.setWidth 64)) c

/-- Restore the most recent context, read as one of the given kind. -/
def restoreContext (c : Core) (kind : ContextKind) : Except Trap Core :=
  match c.frames with
  | [] => .error (.contextUnderflow c.pc)
  | frame :: frames => .ok ({ c with frames }.loadContext kind frame.words)

end Core

/-- A core and the memory it runs on. -/
structure Machine (β : Type) where
  core : Core
  bus : β

end Tricore
