import Tricore.Encoding.Fields
import Tricore.Register

/-!
# Operands

An `Operand` is what an instruction works on, with registers named and constants extended. An
`OperandKind` says which field of an encoding an operand comes from and how it is read;
`OperandKind.resolve` reads it, and fails only for a register pair with an odd index.
-/

namespace Tricore

/-- A memory operand. -/
inductive Place where
  | absolute (addr : Address)
  | based (base : Register) (offset : Word)
  /-- Access at the base, then add the offset to it. -/
  | postIncrement (base : Register) (offset : Word)
  /-- Add the offset to the base, then access at the base. -/
  | preIncrement (base : Register) (offset : Word)
  /-- Base in the even register, index and modifier in the odd one. -/
  | bitReverse (pair : Register)
  /-- Base in the even register, index and buffer length in the odd one. -/
  | circular (pair : Register) (offset : Word)
  deriving DecidableEq, Repr, Inhabited

inductive Operand where
  | reg (r : Register)
  | imm (value : Int)
  /-- A constant for the upper half-word. -/
  | high (half : BitVec 16)
  | target (addr : Address)
  | place (p : Place)
  | csfr (offset : BitVec 16)
  /-- Half-word selector of the register before it. -/
  | selector (text : String)
  deriving DecidableEq, Repr, Inhabited

/-- The register fields of an encoding. -/
inductive RegisterField where
  | a
  | b
  | c
  | d
  deriving DecidableEq, Repr

def RegisterField.index (f : Fields) : RegisterField → Nat
  | a => f.a.toNat
  | b => f.b.toNat
  | c => f.c.toNat
  | d => f.d.toNat

/-- Addressing modes that share the ten-bit offset. -/
inductive BaseMode where
  | plain
  | postIncrement
  | preIncrement
  | bitReverse
  | circular
  deriving DecidableEq, Repr

inductive OperandKind where
  | data (f : RegisterField)
  | address (f : RegisterField)
  | dataPair (f : RegisterField)
  | addressPair (f : RegisterField)
  | fixed (r : Register)
  | selector (text : String)
  /-- The constant, sign-extended from its low `bits` bits. -/
  | signed (bits : Nat)
  | unsigned
  /-- The constant, meant for the upper half-word. -/
  | high
  | csfr
  | index
  | position
  | position2
  | width
  | bit
  | target (kind : TargetKind)
  | absolute
  /-- Base register b and the ten-bit offset. -/
  | based (mode : BaseMode)
  /-- Base register b and the sixteen-bit offset. -/
  | basedLong
  /-- Base register b alone. -/
  | indirect
  /-- Base register b, stepped by the access size afterwards. -/
  | indirectPost (size : Nat)
  /-- Base register b and the offset times `scale`. -/
  | scaled (scale : Nat)
  /-- Register a15 and the offset times `scale`. -/
  | scaledA15 (scale : Nat)
  /-- Register a10 and four times the constant. -/
  | stackSlot
  deriving DecidableEq, Repr

namespace OperandKind

/-- A register pair, or its index where that is odd. -/
def pair (n : Nat) (operand : Operand) : Except Nat Operand :=
  if n % 2 = 1 then .error n else .ok operand

def basedPlace (mode : BaseMode) (n : Nat) (offset : Word) : Except Nat Operand :=
  match mode with
  | .plain => .ok (.place (.based (.a n) offset))
  | .postIncrement => .ok (.place (.postIncrement (.a n) offset))
  | .preIncrement => .ok (.place (.preIncrement (.a n) offset))
  | .bitReverse => pair n (.place (.bitReverse (.p n)))
  | .circular => pair n (.place (.circular (.p n) offset))

/-- The operand of an encoding at `addr`. The error is the odd index of a register pair. -/
def resolve (format : Format) (f : Fields) (addr : Address) : OperandKind → Except Nat Operand
  | data r => .ok (.reg (.d (r.index f)))
  | address r => .ok (.reg (.a (r.index f)))
  | dataPair r => pair (r.index f) (.reg (.e (r.index f)))
  | addressPair r => pair (r.index f) (.reg (.p (r.index f)))
  | fixed r => .ok (.reg r)
  | selector text => .ok (.selector text)
  | signed bits => .ok (.imm (f.const.setWidth bits).toInt)
  | unsigned => .ok (.imm f.const.toNat)
  | high => .ok (.high f.const)
  | csfr => .ok (.csfr f.const)
  | index => .ok (.imm f.n.toNat)
  | position => .ok (.imm f.pos.toNat)
  | position2 => .ok (.imm f.pos2.toNat)
  | width => .ok (.imm f.width.toNat)
  | bit => .ok (.imm f.bit.toNat)
  | target kind => .ok (.target (kind.target format addr f.disp))
  | absolute => .ok (.place (.absolute (absoluteAddress f.off)))
  | based mode => basedPlace mode f.b.toNat ((f.off.setWidth 10).signExtend 32)
  | basedLong => .ok (.place (.based (.a f.b.toNat) ((f.off.setWidth 16).signExtend 32)))
  | indirect => .ok (.place (.based (.a f.b.toNat) 0))
  | indirectPost size => .ok (.place (.postIncrement (.a f.b.toNat) (.ofNat 32 size)))
  | scaled scale =>
    .ok (.place (.based (.a f.b.toNat) (f.off.setWidth 32 * .ofNat 32 scale)))
  | scaledA15 scale => .ok (.place (.based (.a 15) (f.off.setWidth 32 * .ofNat 32 scale)))
  | stackSlot => .ok (.place (.based (.a 10) (f.const.setWidth 32 * 4)))

end OperandKind

end Tricore
