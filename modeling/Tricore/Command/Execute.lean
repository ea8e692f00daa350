import Tricore.Command.Disassemble
import Tricore.Exec.Step
import Tricore.Export.Core
import Tricore.Memory.Window

/-!
# The runner command

Loads a raw image into a window of memory, runs it up to a number of steps or to the first trap, and
shows the core at the end if asked to.
-/

namespace Tricore.Command.Execute

structure Options where
  isa : Isa
  base : Address
  /-- Where to start, at the base by default. -/
  entry? : Option Address
  stackPointer? : Option Address
  memSize : Nat
  maxSteps : Nat
  dump : Bool
  input : String

/-- An address as typed, without blanks. -/
def address (text : String) : Except UsageError Address :=
  (Text.readWord text.toList).mapError fun _ => ⟨⟩

def options (arguments : List String) : Except UsageError Options := do
  let (a, _) ← Grammar.read
    { switches := ["dump"]
      options := ["isa", "base", "entry", "sp", "mem-size", "max-steps"]
      letters := [('e', "entry")]
      values := 1 } arguments
  let [input] := a.values | .error ⟨⟩
  return {
    isa := ← a.optionD "isa" (choice Isa.ofName?) .v16
    base := ← a.optionD "base" address 0
    entry? := ← a.optional "entry" address
    stackPointer? := ← a.optional "sp" address
    memSize := ← a.optionD "mem-size" (number (1 <<< 64)) (16 * 1024 * 1024)
    maxSteps := ← a.optionD "max-steps" (number (1 <<< 64)) 10000000
    dump := a.has "dump"
    input }

/-- The core before the first step. -/
def start (o : Options) : Core :=
  let c : Core := { isa := o.isa, pc := o.entry?.getD o.base }
  match o.stackPointer? with
  | some sp => c.setA 10 sp
  | none => c

def output (o : Options) (file : Array Byte) : Except Failure Output := do
  let empty : Window := { base := o.base, size := o.memSize }
  let memory ← (empty.load o.base file.toList).mapError (.message ·.message)
  let (final, _) := (Machine.mk (start o) memory).steps o.isa o.maxSteps
  return { stdout := if o.dump then final.core.json.pretty ++ "\n" else "" }

end Tricore.Command.Execute
