/-!
# JSON values

Objects keep their fields in order. A number is an integer of any size, or else its text. A string
whose escapes name half a surrogate pair is well-formed and yet no text; it is `unpaired`.
-/

namespace Tricore

inductive Json where
  | null
  | bool (value : Bool)
  | int (value : Int)
  /-- A number that is not written as an integer. -/
  | real (literal : String)
  | str (text : String)
  | unpaired
  | arr (items : List Json)
  | obj (fields : List (String × Json))
  deriving Repr, Inhabited

namespace Json

def nat (n : Nat) : Json := .int n

def word {n : Nat} (v : BitVec n) : Json := .nat v.toNat

def strings (texts : List String) : Json := .arr (texts.map .str)

def ofOption (value : Option Json) : Json := value.getD .null

/-- An object with one field: how a case with content is exported. -/
def tagged (tag : String) (content : Json) : Json := .obj [(tag, content)]

/-- The field of an object. If a name repeats, the last one counts. -/
def get? (j : Json) (name : String) : Option Json :=
  match j with
  | .obj fields => (fields.reverse.find? (·.1 == name)).map (·.2)
  | _ => none

def asInt? : Json → Option Int
  | .int n => some n
  | _ => none

/-- A natural number below `limit`. -/
def asNat? (limit : Nat) : Json → Option Nat
  | .int (.ofNat n) => if n < limit then some n else none
  | _ => none

def asWord? (j : Json) : Option (BitVec 32) := (j.asNat? (1 <<< 32)).map (BitVec.ofNat 32)

def asString? : Json → Option String
  | .str text => some text
  | _ => none

def asArray? : Json → Option (List Json)
  | .arr items => some items
  | _ => none

end Json

end Tricore
