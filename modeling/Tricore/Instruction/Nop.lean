import Tricore.Width

/-!
# No-operations

What to overwrite code with so that nothing happens.
-/

namespace Tricore

/-- The bytes with no-operations in their place: one 32-bit one if they start with a 32-bit
encoding and four bytes are there, else as many 16-bit ones as fit. What follows the 32-bit one, and
an odd byte at the end, stays. -/
def nops : List Byte → List Byte
  | b0 :: b1 :: b2 :: b3 :: rest =>
    if b0.getLsbD 0 then 0x0D :: 0 :: 0 :: 0 :: rest else shortNops (b0 :: b1 :: b2 :: b3 :: rest)
  | bytes => shortNops bytes
where
  shortNops : List Byte → List Byte
    | _ :: _ :: rest => 0 :: 0 :: shortNops rest
    | bytes => bytes

end Tricore
