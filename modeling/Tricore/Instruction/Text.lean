import Tricore.Instruction

/-!
# Instructions as text

An instruction is shown as a list of tokens in the operand order of the assembler; `Token.render`
joins them to one line. Small integers are decimal, others hexadecimal.
-/

namespace Tricore

inductive Token where
  | mnemonic (text : String)
  | whitespace
  /-- Between operands. -/
  | sep
  | register (text : String)
  | integer (value : Int) (base : Nat)
  | address (addr : Address)
  | beginMem
  | endMem
  | text (text : String)
  deriving DecidableEq, Repr

namespace Token

/-- Decimal for one digit, hexadecimal for more. -/
def int (value : Int) : Token :=
  .integer value (if -9 ≤ value ∧ value ≤ 9 then 10 else 16)

def ofRegister (r : Register) : Token := .register r.name

def print : Token → String
  | mnemonic t | register t | text t => t
  | whitespace => " "
  | sep => ", "
  | integer value 16 => (if value < 0 then "-" else "") ++ Text.hex value.natAbs
  | integer value _ => toString value
  | address addr => Text.hexAddress addr
  | beginMem => "["
  | endMem => "]"

def render (tokens : List Token) : String := String.join (tokens.map print)

/-- The tokens of a memory operand. Short encodings leave out what they imply: a zero offset and
the step of a post-increment. -/
def ofPlace (short : Bool) : Place → List Token
  | .absolute addr => [.address addr]
  | .based base offset =>
    [.beginMem, ofRegister base, .endMem] ++
      if offset ≠ 0 ∨ short = false then [int offset.toInt] else []
  | .postIncrement base offset =>
    [.beginMem, ofRegister base, .text "+", .endMem] ++
      if short = false then [int offset.toInt] else []
  | .preIncrement base offset =>
    [.beginMem, .text "+", ofRegister base, .endMem, int offset.toInt]
  | .bitReverse pair => [.beginMem, ofRegister pair, .text "+r", .endMem]
  | .circular pair offset =>
    [.beginMem, ofRegister pair, .text "+c", .endMem, int offset.toInt]

def ofOperand (short : Bool) : Operand → List Token
  | .reg r => [ofRegister r]
  | .imm value => [.text "#", int value]
  | .high half => [.text "#", int half.toNat]
  | .target addr => [.address addr]
  | .place p => ofPlace short p
  | .csfr offset =>
    match Csfr.name? offset with
    | some name => [.register name.toLower]
    | none => [.text "#", int offset.toNat]
  | .selector s => [.text s]

/-- What stands before the operand at `position`: selectors stick to the operand before them. -/
def lead (position : Nat) : Operand → List Token
  | .selector _ => []
  | _ => if position = 0 then [.whitespace] else [.sep]

end Token

namespace Instruction

def tokens (i : Instruction) : List Token :=
  .mnemonic i.mnemonic :: (i.operands.mapIdx fun position operand =>
    Token.lead position operand ++ Token.ofOperand (i.length == 2) operand).flatten

/-- The instruction on one line. -/
def text (i : Instruction) : String := Token.render i.tokens

end Instruction

end Tricore
