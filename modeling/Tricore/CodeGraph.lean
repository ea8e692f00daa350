import Std.Data.TreeMap
import Std.Data.TreeSet
import Tricore.Image
import Tricore.Lift

/-!
# Code graphs

`CodeGraph.explore` follows the control flow of an image from some entries, breadth first, and
decodes a bounded number of instructions. It finds the addresses that are reached, the
instructions that decode, and the links between them.
-/

namespace Tricore

inductive LinkKind where
  | fallThrough
  | branch
  | conditional
  | call
  deriving DecidableEq, Repr

def LinkKind.name : LinkKind → String
  | fallThrough => "ft"
  | branch => "br"
  | conditional => "cbr"
  | call => "call"

/-- Control may go from one address to another. -/
structure Link where
  source : Address
  target : Address
  kind : LinkKind
  deriving DecidableEq, Repr

structure CodeGraph where
  /-- Addresses that were reached, whether or not they decode. -/
  visited : Std.TreeSet Address := {}
  /-- Lengths of the instructions that decode. -/
  widths : Std.TreeMap Address Nat := {}
  /-- Links in the order they were found. -/
  links : Array Link := #[]
  /-- Addresses after which control does not go on to the next instruction. -/
  terminators : Std.TreeSet Address := {}
  /-- Targets of calls. -/
  calls : Std.TreeSet Address := {}

namespace CodeGraph

/-- Where control goes from an instruction at `pc` with the given edges and its successor at
`next`. -/
def linksOf (pc next : Address) (edges : List Edge) : List Link :=
  match edges with
  | [] => [⟨pc, next, .fallThrough⟩]
  | edges => edges.flatMap fun
    | .unconditional t => [⟨pc, t, .branch⟩]
    | .taken t => [⟨pc, t, .conditional⟩]
    | .notTaken t => [⟨pc, t, .fallThrough⟩]
    | .call t => [⟨pc, t, .call⟩, ⟨pc, next, .fallThrough⟩]
    | .indirectCall _ => [⟨pc, next, .fallThrough⟩]
    | .indirect _ | .ret | .unresolved => []

/-- Does control never go on to the next instruction after one with these edges? -/
def terminates (edges : List Edge) : Bool :=
  edges.any fun
    | .unconditional _ | .indirect _ | .ret | .unresolved => true
    | .taken _ | .notTaken _ | .call _ | .indirectCall _ => false

def callTargets (edges : List Edge) : List Address :=
  edges.filterMap fun | .call t => some t | _ => none

/-- An instruction found at an address. -/
structure Found where
  pc : Address
  length : Nat
  edges : List Edge

def Found.links (i : Found) : List Link := linksOf i.pc (i.pc + .ofNat 32 i.length) i.edges

def visit (g : CodeGraph) (pc : Address) : CodeGraph := { g with visited := g.visited.insert pc }

def terminate (g : CodeGraph) (pc : Address) : CodeGraph :=
  { g with terminators := g.terminators.insert pc }

/-- Visit the addresses of the queue up to the first new one that decodes; that instruction and the
rest of the queue. -/
def advance (isa : Isa) (img : Image) :
    List Address → CodeGraph → CodeGraph × Option (Found × List Address)
  | [], g => (g, none)
  | pc :: queue, g =>
    if g.visited.contains pc then advance isa img queue g
    else
      let bytes := img.code pc
      match probe isa bytes pc bytes.length with
      | .error _ => advance isa img queue ((g.visit pc).terminate pc)
      | .ok (length, edges) => (g.visit pc, some (⟨pc, length, edges⟩, queue))

/-- The graph with an instruction added. -/
def add (g : CodeGraph) (i : Found) : CodeGraph where
  visited := g.visited
  widths := g.widths.insert i.pc i.length
  links := g.links ++ i.links
  terminators := if terminates i.edges then g.terminators.insert i.pc else g.terminators
  calls := (callTargets i.edges).foldl (·.insert ·) g.calls

/-- The targets of an instruction's links that are still to be visited. -/
def pending (img : Image) (g : CodeGraph) (i : Found) : List Address :=
  (i.links.map (·.target)).filter fun t => img.isMapped t && !g.visited.contains t

/-- Decode at most the given number of instructions, from the queue on. -/
def descend (isa : Isa) (img : Image) : Nat → List Address → CodeGraph → CodeGraph
  | 0, _, g => g
  | budget + 1, queue, g =>
    match advance isa img queue g with
    | (g, none) => g
    | (g, some (i, queue)) => descend isa img budget (queue ++ pending img g i) (g.add i)

/-- Follow the control flow from the mapped entries. -/
def explore (isa : Isa) (img : Image) (entries : List Address) (budget : Nat) : CodeGraph :=
  descend isa img budget (entries.filter img.isMapped) {}

end CodeGraph

end Tricore
