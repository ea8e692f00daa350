import Tricore.CodeGraph.Report
import Tricore.Json

/-!
# Reports as JSON
-/

namespace Tricore

def Block.json (b : Block) : Json := .obj [("start", .word b.start), ("end", .word b.stop)]

def Link.json (l : Link) : Json :=
  .obj [("from", .word l.source), ("to", .word l.target), ("kind", .str l.kind.name)]

def Routine.json (r : Routine) : Json :=
  .obj [("entry", .word r.entry), ("blocks", .arr (r.blocks.map .word))]

namespace Report

/-- The report with its blocks shown as given, and with more fields after the others. -/
def jsonWith (r : Report) (blocks : List Json) (more : List (String × Json)) : Json :=
  .obj ([("entries", .arr (r.entries.map .word)), ("blocks", .arr blocks),
    ("edges", .arr (r.links.map (·.json))), ("functions", .arr (r.routines.map (·.json)))] ++ more)

def json (r : Report) : Json := r.jsonWith (r.blocks.map (·.json)) []

end Report

end Tricore
