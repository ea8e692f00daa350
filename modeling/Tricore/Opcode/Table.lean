import Tricore.Opcode.Arithmetic
import Tricore.Opcode.BitField
import Tricore.Opcode.Branch
import Tricore.Opcode.Division
import Tricore.Opcode.Memory
import Tricore.Opcode.Multiply
import Tricore.Opcode.Platform
import Tricore.Opcode.Short

/-!
# The opcode table

`Opcode.table` holds every group, one per primary opcode. `primaryOf` takes the primary opcode out
of a raw word: eight bits, but seven for the bit branches (bit 7 belongs to their bit index) and six
for the short scaled sum (bits 6 and 7 are its scale).
-/

namespace Tricore.Opcode

def table : List Group :=
  arithmetic ++ bitField ++ branch ++ division ++ memory ++ multiply ++ platform ++ short

/-- The group of a primary opcode. -/
def group? (primary : BitVec 8) : Option Group := table.find? (·.primary == primary)

/-- The row of a primary and a secondary opcode. -/
def row? (primary secondary : BitVec 8) : Option Row :=
  (group? primary).bind (·.find? secondary)

/-- The primary opcode of a raw word that encodes a `long` or a short instruction. -/
def primaryOf (raw : Word) (long : Bool) : BitVec 8 :=
  if long && bitsAt raw 0 7 == 0x6F then 0x6F
  else if !long && bitsAt raw 0 6 == 0x10 then 0x10
  else bitsAt raw 0 8

end Tricore.Opcode
