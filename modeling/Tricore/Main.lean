import Tricore.Command.Execute

/-!
# The command line

`disasm` and `run` followed by the arguments of the command. Files are read and written here and
nowhere else.
-/

open Tricore Tricore.Command

namespace Tricore.Command

def readBytes (path : String) : IO (Array Byte) := do
  return (← IO.FS.readBinFile path).data.map fun b => b.toBitVec

/-- Print and write what a command puts out; its exit code. -/
def finish : Except Failure Output → IO UInt32
  | .ok o => do
    for (path, text) in o.files do IO.FS.writeFile path text
    IO.print o.stdout
    return 0
  | .error .usage => do
    IO.eprintln "error: bad arguments"
    return 2
  | .error (.message text) => do
    IO.eprintln s!"Error: {text}"
    return 1
  | .error .labels => do
    IO.eprintln "Error: the label file is malformed"
    return 1

def disassemble (arguments : List String) : IO UInt32 := do
  match Disassemble.options arguments with
  | .error _ => finish (.error .usage)
  | .ok o =>
    let file ← readBytes o.input
    let labelText? ← match o.task with
      | .analyze { labelsIn? := some path, .. } => some <$> IO.FS.readFile path
      | _ => pure none
    finish (Disassemble.output o file labelText?)

def execute (arguments : List String) : IO UInt32 := do
  match Execute.options arguments with
  | .error _ => finish (.error .usage)
  | .ok o => finish (Execute.output o (← readBytes o.input))

end Tricore.Command

def main : List String → IO UInt32
  | "disasm" :: arguments => disassemble arguments
  | "run" :: arguments => execute arguments
  | _ => finish (.error .usage)
