import Tricore.Instruction.Branches
import Tricore.Instruction.Text
import Tricore.Json

/-!
# Instructions as JSON

A case without content is its name, a case with content an object with that name as its only field.
-/

namespace Tricore

def Register.json : Register → Json
  | .d n => .tagged "D" (.nat n)
  | .a n => .tagged "A" (.nat n)
  | .e n => .tagged "E" (.nat n)
  | .p n => .tagged "P" (.nat n)
  | .psw => .str "Psw"
  | .pc => .str "Pc"
  | .pcxi => .str "Pcxi"
  | .csfr offset => .tagged "Sys" (.word offset)
  | .temp n => .tagged "Temp" (.nat n)
  | .tempWide n => .tagged "TempWide" (.nat n)

def Place.json : Place → Json
  | .absolute addr => .tagged "Absolute" (.word addr)
  | .based base offset => based "Base" base offset
  | .postIncrement base offset => based "PostInc" base offset
  | .preIncrement base offset => based "PreInc" base offset
  | .bitReverse pair => .tagged "BitReverse" (.obj [("pair", pair.json)])
  | .circular pair offset =>
    .tagged "Circular" (.obj [("pair", pair.json), ("offset", .int offset.toInt)])
where
  based (tag : String) (base : Register) (offset : Word) : Json :=
    .tagged tag (.obj [("base", base.json), ("offset", .int offset.toInt)])

def Operand.json : Operand → Json
  | .reg r => .tagged "Reg" r.json
  | .imm value => .tagged "Imm" (.int value)
  | .high half => .tagged "Hi" (.word half)
  | .target addr => .tagged "Target" (.word addr)
  | .place p => .tagged "Mem" p.json
  | .csfr offset => .tagged "SysReg" (.word offset)
  | .selector text => .tagged "Text" (.str text)

def Edge.json : Edge → Json
  | .unconditional t => .tagged "Unconditional" (.word t)
  | .taken t => .tagged "True" (.word t)
  | .notTaken t => .tagged "False" (.word t)
  | .call t => .tagged "Call" (.word t)
  | .indirect through => .tagged "Indirect" through.json
  | .indirectCall through => .tagged "IndirectCall" through.json
  | .ret => .str "Return"
  | .unresolved => .str "Unresolved"

def Token.json : Token → Json
  | .mnemonic t => .tagged "Mnemonic" (.str t)
  | .whitespace => .str "Whitespace"
  | .sep => .str "Sep"
  | .register t => .tagged "Register" (.str t)
  | .integer value base =>
    .tagged "Integer" (.obj [("value", .int value), ("base", .nat base)])
  | .address addr => .tagged "Address" (.word addr)
  | .beginMem => .str "BeginMem"
  | .endMem => .str "EndMem"
  | .text t => .tagged "Text" (.str t)

namespace DecodeError

def fields : DecodeError → List (String × Json)
  | truncated addr need got =>
    [("addr", .word addr), ("need", .nat need), ("have", .nat got)]
  | unknownPrimary addr primary => [("addr", .word addr), ("primary", .word primary)]
  | unknownSecondary addr primary secondary =>
    [("addr", .word addr), ("primary", .word primary), ("secondary", .word secondary)]
  | oddPair addr mnemonic index length =>
    [("addr", .word addr), ("mnemonic", .str mnemonic), ("index", .nat index),
      ("len", .nat length)]
  | requiresV16 addr mnemonic length | unliftable addr mnemonic length =>
    [("addr", .word addr), ("mnemonic", .str mnemonic), ("len", .nat length)]

/-- The error with the number of bytes to step over. -/
def json (e : DecodeError) : Json :=
  .obj [("error", .tagged e.tag (.obj e.fields)), ("length", .nat e.skip)]

end DecodeError

end Tricore
