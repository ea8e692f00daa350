/-!
# Instruction set revisions
-/

namespace Tricore

/-- Revisions of the instruction set, oldest first. -/
inductive Isa where
  | v13
  | v16
  deriving DecidableEq, Repr, Inhabited

namespace Isa

def name : Isa → String
  | v13 => "v1.3"
  | v16 => "v1.6"

def ofName? : String → Option Isa
  | "v1.3" => some v13
  | "v1.6" => some v16
  | _ => none

/-- Does revision `isa` have what was introduced with `since`? -/
def supports (isa since : Isa) : Bool :=
  match isa, since with
  | v13, v16 => false
  | _, _ => true

end Isa

end Tricore
