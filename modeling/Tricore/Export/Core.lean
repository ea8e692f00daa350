import Tricore.Core
import Tricore.Core.Psw
import Tricore.Json

/-!
# Core state as JSON

`Core.json` shows everything but the temporaries; `Core.ofJson?` reads it back. A record may also be
given as the array of its fields. Fields that are not known are ignored; a missing one, or a number
out of range, fails.
-/

namespace Tricore

namespace Frame

def json (f : Frame) : Json :=
  .obj [("kind", .str f.kind.name), ("words", .arr (f.words.toList.map .word))]

end Frame

namespace Core

def json (c : Core) : Json :=
  .obj [("pc", .word c.pc), ("psw", .str (Psw.print c.psw)), ("d", .arr (c.d.toList.map .word)),
    ("a", .arr (c.a.toList.map .word)), ("pcxi", .word c.pcxi),
    ("sys", .obj (c.csfr.map fun (offset, value) => (toString offset.toNat, .word value))),
    ("csa", .arr (c.frames.reverse.map (·.json))),
    ("cfg", .obj [("variant", .str c.isa.name)])]

end Core

namespace Json

/-- The fields of a record, given by name or in order. -/
def record? (names : List String) : Json → Option (List Json)
  | .arr items => if items.length = names.length then some items else none
  | .obj fields => names.mapM (Json.obj fields).get?
  | _ => none

/-- A case without content: its name, or an object with the name and nothing. -/
def caseName? : Json → Option String
  | .str name => some name
  | .obj [(name, .null)] => some name
  | _ => none

def words16? (j : Json) : Option (Vector Word 16) := do
  let words ← (← j.asArray?).mapM asWord?
  if h : words.length = 16 then return ⟨words.toArray, by simpa using h⟩ else none

/-- A decimal number below 2^16, in its shortest form. -/
def offset? (text : String) : Option (BitVec 16) := do
  let n ← (Text.readDecimal (1 <<< 16) text).toOption
  if toString n = text then return .ofNat 16 n else none

def csfrFile? : Json → Option CsfrFile
  | .obj fields =>
    fields.foldlM
      (fun file (name, value) => do return file.set (← offset? name) (← value.asWord?)) []
  | _ => none

def frame? (j : Json) : Option Frame := do
  let [kind, words] ← j.record? ["kind", "words"] | none
  return ⟨← ContextKind.ofName? (← kind.caseName?), ← words.words16?⟩

def isa? (j : Json) : Option Isa := do
  let [variant] ← j.record? ["variant"] | none
  Isa.ofName? (← variant.caseName?)

end Json

/-- The core that was shown. -/
def Core.ofJson? (j : Json) : Option Core := do
  let [pc, psw, d, a, pcxi, sys, csa, cfg] ←
    j.record? ["pc", "psw", "d", "a", "pcxi", "sys", "csa", "cfg"] | none
  return {
    pc := ← pc.asWord?
    psw := ← Psw.read? (← psw.asString?)
    d := ← d.words16?
    a := ← a.words16?
    pcxi := ← pcxi.asWord?
    csfr := ← sys.csfrFile?
    frames := (← (← csa.asArray?).mapM (·.frame?)).reverse
    isa := ← cfg.isa? }

end Tricore
