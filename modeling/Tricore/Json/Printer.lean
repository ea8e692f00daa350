import Tricore.Json
import Tricore.Text.Hex

/-!
# Writing JSON

`Json.compact` writes a value without blanks; `Json.pretty` puts every element on a line of its own,
two blanks deeper than what holds it, and writes an empty array or object as `[]` or `{}`.
Strings escape the quote, the backslash and the control characters.
-/

namespace Tricore.Json

def escapeChar (c : Char) : String :=
  match c with
  | '"' => "\\\""
  | '\\' => "\\\\"
  | '\n' => "\\n"
  | '\r' => "\\r"
  | '\t' => "\\t"
  | c =>
    if c.toNat = 8 then "\\b"
    else if c.toNat = 12 then "\\f"
    else if c.toNat < 32 then "\\u" ++ Text.hexPadded 4 c.toNat
    else c.toString

def quote (text : String) : String :=
  "\"" ++ String.join (text.toList.map escapeChar) ++ "\""

/-- A value that holds no other, and the empty array and object. -/
def atom : Json → String
  | null => "null"
  | bool true => "true"
  | bool false => "false"
  | int n => toString n
  | real literal => literal
  | str text => quote text
  | unpaired => quote "\uFFFD"
  | arr _ => "[]"
  | obj _ => "\x7b\x7d"

mutual

def compact : Json → String
  | arr (item :: items) => "[" ++ compact item ++ compactItems items ++ "]"
  | obj ((name, value) :: fields) =>
    "\x7b" ++ quote name ++ ":" ++ compact value ++ compactFields fields ++ "\x7d"
  | j => atom j

def compactItems : List Json → String
  | [] => ""
  | item :: items => "," ++ compact item ++ compactItems items

def compactFields : List (String × Json) → String
  | [] => ""
  | (name, value) :: fields => "," ++ quote name ++ ":" ++ compact value ++ compactFields fields

end

/-- A new line, indented. -/
def newLine (depth : Nat) : String := "\n" ++ String.ofList (List.replicate (2 * depth) ' ')

mutual

/-- The value, the lines after its first one indented for `depth`. -/
def prettyAt (depth : Nat) : Json → String
  | arr (item :: items) =>
    "[" ++ newLine (depth + 1) ++ prettyAt (depth + 1) item ++ prettyItems (depth + 1) items ++
      newLine depth ++ "]"
  | obj ((name, value) :: fields) =>
    "\x7b" ++ newLine (depth + 1) ++ quote name ++ ": " ++ prettyAt (depth + 1) value ++
      prettyFields (depth + 1) fields ++ newLine depth ++ "\x7d"
  | j => atom j

def prettyItems (depth : Nat) : List Json → String
  | [] => ""
  | item :: items => "," ++ newLine depth ++ prettyAt depth item ++ prettyItems depth items

def prettyFields (depth : Nat) : List (String × Json) → String
  | [] => ""
  | (name, value) :: fields =>
    "," ++ newLine depth ++ quote name ++ ": " ++ prettyAt depth value ++ prettyFields depth fields

end

def pretty (j : Json) : String := prettyAt 0 j

end Tricore.Json
