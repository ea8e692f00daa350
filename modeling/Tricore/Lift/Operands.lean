import Tricore.Instruction
import Tricore.Lift.Emit

/-!
# Reading operands

An instruction's effects are planned from its operands, read by position with the selectors left
out. An operand that is missing or of the wrong kind is an `OperandError`; it names the instruction
and the position. A `Plan` reads operands and emits statements. Labels come from the host and cannot
be given back, so a plan that fails after it took one leaves its trace at the host.
-/

namespace Tricore.Lift

structure OperandError where
  mnemonic : String
  index : Nat
  deriving DecidableEq, Repr

def OperandError.message (e : OperandError) : String :=
  s!"{e.mnemonic}: operand {e.index} is missing or of the wrong kind"

/-- What plans are made from. -/
structure Source where
  mnemonic : String
  /-- Address of the instruction after this one. -/
  next : Address
  /-- The operands without the selectors. -/
  operands : List Operand

def Source.of (i : Instruction) : Source where
  mnemonic := i.mnemonic
  next := i.next
  operands := i.operands.filter fun | .selector _ => false | _ => true

abbrev Read (α : Type) := Except OperandError α

/-- Work that reads operands and emits statements. What it took from the supply stays taken if an
operand cannot be read. -/
def Planning (α : Type) : Type := Supply → Except OperandError α × List Stmt × Supply

instance : Monad Planning where
  pure a := fun supply => (.ok a, [], supply)
  bind x f := fun supply =>
    match x supply with
    | (.ok a, first, supply) =>
      let (b, rest, supply) := f a supply
      (b, first ++ rest, supply)
    | (.error e, stmts, supply) => (.error e, stmts, supply)

instance : MonadLift Read Planning where
  monadLift x := fun supply => (x, [], supply)

/-- The effects of an instruction, from its operands. -/
abbrev Plan := Planning Unit

/-- Emit, which cannot fail. -/
def emitting (e : Emit Unit) : Plan := fun supply =>
  let (_, stmts, supply) := e supply
  (.ok (), stmts, supply)

/-- Where a field starts or how wide it is: known now, or the low five bits of a register. -/
inductive Amount where
  | static (n : Nat)
  | dynamic (e : Expr)

def Amount.expr : Amount → Expr
  | static n => .const .word (.ofNat 64 n)
  | dynamic e => e

/-- The low five bits of a register. -/
def Amount.ofRegister (r : Register) : Amount := .dynamic (.and .word (.reg r) (.const .word 31))

namespace Source

variable (s : Source)

def bad (α : Type) (index : Nat) : Read α := .error ⟨s.mnemonic, index⟩

def arity : Nat := s.operands.length

def operand (i : Nat) : Read Operand :=
  match s.operands[i]? with
  | some o => .ok o
  | none => s.bad _ i

def reg (i : Nat) : Read Register := do
  match ← s.operand i with
  | .reg r => .ok r
  | _ => s.bad _ i

def imm (i : Nat) : Read Int := do
  match ← s.operand i with
  | .imm value => .ok value
  | _ => s.bad _ i

/-- An immediate as an unsigned 32-bit number. -/
def count (i : Nat) : Read Nat := do
  let value ← s.imm i
  return (BitVec.ofInt 32 value).toNat

def place (i : Nat) : Read Place := do
  match ← s.operand i with
  | .place p => .ok p
  | _ => s.bad _ i

def target (i : Nat) : Read Address := do
  match ← s.operand i with
  | .target t => .ok t
  | _ => s.bad _ i

def csfr (i : Nat) : Read (BitVec 16) := do
  match ← s.operand i with
  | .csfr offset => .ok offset
  | _ => s.bad _ i

/-- An operand as a value: registers are read, constants are 32 bits wide. -/
def value (i : Nat) : Read Expr := do
  match ← s.operand i with
  | .reg r => .ok (.reg r)
  | .imm v => .ok (.word (.ofInt 32 v))
  | .high h => .ok (.word (h ++ (0 : BitVec 16)))
  | .target t => .ok (.word t)
  | .csfr offset => .ok (.const .half (offset.setWidth 64))
  | .place _ | .selector _ => s.bad _ i

/-- All operands from `i` on, as values. -/
def values (i : Nat) : Read (List Expr) :=
  (List.range' i (s.arity - i)).mapM s.value

def amount (i : Nat) : Read Amount := do
  match ← s.operand i with
  | .imm v => .ok (.static (BitVec.ofInt 32 v).toNat)
  | .reg r => .ok (.ofRegister r)
  | _ => s.bad _ i

/-- Low and high register of a pair. -/
def pair (i : Nat) : Read (Register × Register) := do
  match (← s.reg i).halves? with
  | some halves => .ok halves
  | none => s.bad _ i

/-- Destination and two sources; of two operands the first is both. -/
def binary : Read (Register × Expr × Expr) := do
  match s.arity with
  | 3 => return (← s.reg 0, ← s.value 1, ← s.value 2)
  | 2 => return (← s.reg 0, ← s.value 0, ← s.value 1)
  | n => s.bad _ n

/-- Destination and source; a single operand is both. -/
def unary : Read (Register × Expr) := do
  match s.arity with
  | 2 => return (← s.reg 0, ← s.value 1)
  | 1 => return (← s.reg 0, ← s.value 0)
  | n => s.bad _ n

end Source

end Tricore.Lift
