import Tricore.Flag
import Tricore.Text.Blank
import Tricore.Text.Hex
import Tricore.Text.Numeral

/-!
# The status word as text

The names of the status bits that are set, from the highest down, then the other bits as one
hexadecimal number, all joined by bars. Reading takes names and hexadecimal numbers in any order.
-/

namespace Tricore.Psw

/-- The bits with a name. -/
def named : List (String × Word) :=
  [("C", 1 <<< 31), ("V", 1 <<< 30), ("SV", 1 <<< 29), ("AV", 1 <<< 28), ("SAV", 1 <<< 27),
    ("FX", 1 <<< 26)]

/-- The bits without a name. -/
def unnamed : Word := 0x03FFFFFF

def print (psw : Word) : String :=
  let names := (named.filter fun (_, bit) => psw &&& bit ≠ 0).map (·.1)
  let rest := psw &&& unnamed
  " | ".intercalate (names ++ if rest = 0 then [] else [Text.hex rest.toNat])

/-- One part of the text: a name, or a number after `0x`. -/
def part? (text : List Char) : Option Word :=
  match text with
  | '0' :: 'x' :: digits => ((Text.readNumber 16 (1 <<< 32) digits).toOption).map (BitVec.ofNat 32)
  | _ => named.lookup (String.ofList text)

/-- The text before the first bar, and the parts between and after the bars. -/
def atBars (text : List Char) : List Char × List (List Char) :=
  text.foldr (fun c (first, others) =>
    if c = '|' then ([], first :: others) else (c :: first, others)) ([], [])

/-- The status word that a text names; a blank text is zero, and no part may be blank. -/
def read? (text : String) : Option Word :=
  let cs := text.toList
  if (Text.trim cs).isEmpty then some 0
  else
    let (first, others) := atBars cs
    (first :: others).foldlM (fun psw part => (part? (Text.trim part)).map (psw ||| ·)) 0

end Tricore.Psw
