import Tricore.CodeGraph

/-!
# Blocks and functions

A report cuts the decoded instructions into blocks, moves the links' sources to the blocks they
are in, and gathers blocks into functions. A block starts at an entry or at the target of a link; a
function starts at an entry or at the target of a call, and holds what can be reached from there
without a call.
-/

namespace Tricore

structure Block where
  start : Address
  /-- The address after the last instruction. -/
  stop : Address
  deriving DecidableEq, Repr

structure Routine where
  entry : Address
  blocks : List Address
  deriving DecidableEq, Repr

structure Report where
  entries : List Address
  blocks : List Block
  links : List Link
  routines : List Routine
  deriving DecidableEq, Repr

namespace CodeGraph

/-- The block that each decoded address is in. -/
abbrev Owners := Std.TreeMap Address Address

/-- The addresses where blocks may start. -/
def starts (g : CodeGraph) (entries : List Address) : Std.TreeSet Address :=
  .ofList (entries ++ g.links.toList.map (·.target))

/-- Does a block end with the instruction at `pc`, before `next`? -/
def endsBlock (g : CodeGraph) (starts : Std.TreeSet Address) (pc next : Address) : Bool :=
  g.terminators.contains pc || !g.widths.contains next || starts.contains next

/-- Give the instructions from `pc` on to the block that starts at `start`, up to where it ends; no
end if nothing decodes at `pc`. A block has at most `fuel` instructions. -/
def walk (g : CodeGraph) (starts : Std.TreeSet Address) (start : Address) :
    Nat → Address → Owners → Owners × Option Address
  | 0, _, owners => (owners, none)
  | fuel + 1, pc, owners =>
    match g.widths[pc]? with
    | none => (owners, none)
    | some width =>
      let owners := owners.insert pc start
      let next := pc + .ofNat 32 width
      if g.endsBlock starts pc next then (owners, some next)
      else g.walk starts start fuel next owners

/-- Blocks that start at the given addresses, unless an earlier block holds them already. -/
def blocksFrom (g : CodeGraph) (starts : Std.TreeSet Address) :
    List Address → Owners → List Block × Owners
  | [], owners => ([], owners)
  | start :: rest, owners =>
    if !g.visited.contains start || owners.contains start then g.blocksFrom starts rest owners
    else
      match g.walk starts start g.widths.size start owners with
      | (owners, none) => g.blocksFrom starts rest owners
      | (owners, some stop) =>
        let (blocks, owners) := g.blocksFrom starts rest owners
        (⟨start, stop⟩ :: blocks, owners)

/-- Addresses that links other than calls lead to, by source. -/
def adjacency (links : List Link) : Std.TreeMap Address (List Address) :=
  links.foldl (fun adj l =>
    if l.kind = .call then adj else adj.insert l.source (adj.getD l.source [] ++ [l.target])) {}

/-- What can be reached from the queue, found in at most `fuel` steps. -/
def reach (adj : Std.TreeMap Address (List Address)) :
    Nat → List Address → Std.TreeSet Address → Std.TreeSet Address
  | 0, _, seen => seen
  | _, [], seen => seen
  | fuel + 1, b :: queue, seen =>
    if seen.contains b then reach adj fuel queue seen
    else reach adj fuel (queue ++ adj.getD b []) (seen.insert b)

/-- The function that starts at `entry`. Each link is followed once, which bounds the steps. -/
def routine (g : CodeGraph) (links : List Link) (adj : Std.TreeMap Address (List Address))
    (entry : Address) : Routine :=
  let seen := reach adj (links.length + 1) [entry] {}
  ⟨entry, seen.toList.filter g.visited.contains⟩

def report (g : CodeGraph) (entries : List Address) : Report :=
  let starts := g.starts entries
  let (blocks, owners) := g.blocksFrom starts starts.toList {}
  let links := g.links.toList.map fun l => { l with source := owners.getD l.source l.source }
  let adj := adjacency links
  let roots : Std.TreeSet Address := .ofList (entries ++ g.calls.toList)
  { entries
    blocks
    links
    routines := (roots.toList.filter g.visited.contains).map (g.routine links adj) }

end CodeGraph

end Tricore
