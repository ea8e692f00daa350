import Tricore.Image
import Tricore.Lift

/-!
# Listings

`sweep` goes through an image from one address to another: an instruction moves on by its length,
bytes that are none by as many as the error says to step over. What is made of each place is up to
the caller.
-/

namespace Tricore

/-- What stands at a place, and by how many bytes to move on. -/
structure Item (α : Type) where
  content : α
  length : Nat

/-- Items from `pc` up to `stop`, or up to where nothing is mapped; also the address reached. At
most `fuel` items. -/
def sweepFrom {α : Type} (img : Image) (item : List Byte → Address → Item α) (stop : Address) :
    Nat → Address → List (Address × α) × Address
  | 0, pc => ([], pc)
  | fuel + 1, pc =>
    if pc < stop then
      match img.code pc with
      | [] => ([], pc)
      | bytes =>
        let i := item bytes pc
        let (items, reached) := sweepFrom img item stop fuel (pc + .ofNat 32 i.length)
        ((pc, i.content) :: items, reached)
    else ([], pc)

/-- Every item takes at least one byte, so no sweep has more items than the image has bytes. -/
def sweep {α : Type} (img : Image) (item : List Byte → Address → Item α) (start stop : Address) :
    List (Address × α) × Address :=
  sweepFrom img item stop img.size start

/-- An instruction with its length, or nothing; steps over what an error says, one byte at least. -/
def decoded {α : Type} (read : List Byte → Address → Except DecodeError (Nat × α))
    (bytes : List Byte) (pc : Address) : Item (Option (Nat × α)) :=
  match read bytes pc with
  | .ok (length, content) => ⟨some (length, content), length⟩
  | .error e => ⟨none, max e.skip 1⟩

/-- The instructions of a sweep. -/
def instructions {α : Type} (img : Image)
    (read : List Byte → Address → Except DecodeError (Nat × α)) (start stop : Address) :
    List (Address × Nat × α) :=
  (sweep img (decoded read) start stop).1.filterMap fun (pc, i) => i.map fun i => (pc, i)

/-- Blanks taken off the end. -/
def trimEnd (text : String) : String :=
  String.ofList (text.toList.reverse.dropWhile (· == ' ')).reverse

/-- One line: the address, the bytes if asked for, and the instruction or else the bytes as data. -/
def lineItem (isa : Isa) (showBytes : Bool) (bytes : List Byte) (pc : Address) : Item String :=
  let (length, text) :=
    match render isa bytes pc with
    | .ok (length, tokens) => (length, Token.render tokens)
    | .error e =>
      let length := max (min e.skip bytes.length) 1
      (length, ".byte " ++ trimEnd (Text.hexBytes (bytes.take length)))
  let shown := if showBytes then Text.padRight 12 (Text.hexBytes (bytes.take length)) ++ " " else ""
  ⟨Text.hexAddress pc ++ ": " ++ shown ++ text, length⟩

/-- The line at an address, if it is mapped. -/
def line? (isa : Isa) (img : Image) (showBytes : Bool) (pc : Address) : Option String :=
  match img.code pc with
  | [] => none
  | bytes => some (lineItem isa showBytes bytes pc).content

/-- The lines of a range, with a last one where it leaves the image. -/
def listing (isa : Isa) (img : Image) (showBytes : Bool) (start stop : Address) : List String :=
  let (items, reached) := sweep img (lineItem isa showBytes) start stop
  items.map (·.2) ++ if reached < stop then [Text.hexAddress reached ++ ": <oob>"] else []

/-- The lines of a block, up to where it leaves the image. -/
def blockLines (isa : Isa) (img : Image) (showBytes : Bool) (start stop : Address) :
    List String :=
  (sweep img (lineItem isa showBytes) start stop).1.map (·.2)

end Tricore
