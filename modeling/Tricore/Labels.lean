import Std.Data.TreeMap
import Tricore.CodeGraph.Report
import Tricore.Json.Printer
import Tricore.Json.Reader

/-!
# Labels

Names for addresses. They can be read from a file, a JSON array of records with an address and a
name, and are made up for functions and blocks that have none.
-/

namespace Tricore

abbrev Labels := Std.TreeMap Address String

namespace Labels

/-- A record of a label file: each field once, others ignored, or just the two values. -/
def entry? : Json → Option (Address × String)
  | .arr [addr, name] => do return (← addr.asWord?, ← name.asString?)
  | .obj fields => do
    let [addr] := fields.filter (·.1 == "addr") | none
    let [name] := fields.filter (·.1 == "name") | none
    return (← addr.2.asWord?, ← name.2.asString?)
  | _ => none

/-- Labels from the text of a file; of several for one address the last counts. -/
def read? (text : String) : Option Labels := do
  let entries ← (← (← Json.read? text).asArray?).mapM entry?
  return entries.foldl (fun labels (addr, name) => labels.insert addr name) {}

/-- A name made of a few letters and the address. -/
def madeUp (letters : String) (addr : Address) : String :=
  letters ++ Text.hexPadded 8 addr.toNat

/-- Name the addresses that have no label. -/
def complete (labels : Labels) (letters : String) (addrs : List Address) : Labels :=
  addrs.foldl (fun labels addr => labels.insertIfNew addr (madeUp letters addr)) labels

/-- Labels for every function and block of a report. -/
def ofReport (labels : Labels) (r : Report) : Labels :=
  (labels.complete "sub_" (r.routines.map (·.entry))).complete "loc_" (r.blocks.map (·.start))

def json (labels : Labels) : Json :=
  .arr (labels.toList.map fun (addr, name) => .obj [("addr", .word addr), ("name", .str name)])

end Labels

end Tricore
