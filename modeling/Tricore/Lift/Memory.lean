import Tricore.Lift.Operands

/-!
# Loads, stores and read-modify-write

An addressing mode gives the address to access and the updates of its base registers, which come
after the access. A circular buffer wraps its index once, and an access never splits at its end.
-/

namespace Tricore.Lift

/-- Where to access, and the updates that follow the access. -/
structure Addressed where
  addr : Expr
  updates : List Stmt

/-- The address part and the index part of a pair; a register that is no pair is both. -/
def pairParts (pair : Register) : Register × Register := pair.halves?.getD (pair, pair)

/-- Access the element that the index of a circular buffer points to, and step the index. -/
def circular (pair : Register) (offset : Word) : Emit Addressed := do
  let (base, state) := pairParts pair
  let index ← temp (.and .word (.reg state) (.const .word 0xFFFF))
  let length ← temp (.lsr .word (.reg state) (.const .word 16))
  let addr ← temp (.add .word (.reg base) index)
  let stepped ← temp (.add .word index (.word offset))
  let stepped ← temp (.select .word (.compare .slt .word stepped (.const .word 0))
    (.add .word stepped length) stepped)
  let wrapped := Expr.select .word (.compare .sge .word stepped length)
    (.sub .word stepped length) stepped
  return ⟨addr, [.setReg state (.or .word (.shl .word length (.const .word 16))
    (.and .word wrapped (.const .word 0xFFFF)))]⟩

/-- The address of a memory operand. -/
def access : Place → Emit Addressed
  | .absolute addr => pure ⟨.word addr, []⟩
  | .based base offset =>
    pure ⟨if offset = 0 then .reg base else .add .word (.reg base) (.word offset), []⟩
  | .postIncrement base offset => do
    let addr ← temp (.reg base)
    return ⟨addr, [.setReg base (.add .word addr (.word offset))]⟩
  | .preIncrement base offset => do
    let addr ← temp (.add .word (.reg base) (.word offset))
    return ⟨addr, [.setReg base addr]⟩
  | .bitReverse pair => do
    let (base, index) := pairParts pair
    let addr ← temp (.add .word (.reg base) (.and .word (.reg index) (.const .word 0xFFFF)))
    return ⟨addr, [.intrinsic .bitReverseStep [index] [.reg index]]⟩
  | .circular pair offset => circular pair offset

/-- Replace the bits of `old` that the mask selects. -/
def masked (old value mask : Expr) : Expr :=
  .or .word (.and .word old (.not .word mask)) (.and .word value mask)

/-- Registers that a load of the upper context writes. -/
def upperRegisters : List Register :=
  (List.range' 10 6).map .a ++ (List.range' 8 8).map .d ++ [.psw, .pcxi]

/-- Registers that a load of the lower context writes. -/
def lowerRegisters : List Register :=
  (List.range' 2 6).map .a ++ (List.range 8).map .d ++ [.link, .pcxi]

/-- Registers that a context operation on memory writes. -/
def contextOutputs : Intrinsic → List Register
  | .loadLowerContext => lowerRegisters
  | .loadUpperContext => upperRegisters
  | _ => []

namespace Plan

def loadAddress (s : Source) : Plan := do
  let dst ← s.reg 0
  let place ← s.place 1
  emitting do set dst (← access place).addr

def load (kind : Access) (s : Source) : Plan := do
  let dst ← s.reg 0
  let place ← s.place 1
  emitting do
    let a ← access place
    let loaded := Expr.load kind.width a.addr
    set dst (match kind with
      | .byte | .half => .sext .word loaded
      | .byteU | .halfU => .zext .word loaded
      | .fraction => .shl .word (.zext .word loaded) (.const .word 16)
      | .word | .address | .double | .addressPair => loaded)
    emitAll a.updates

def store (kind : Access) (s : Source) : Plan := do
  let place ← s.place 0
  let src ← s.value 1
  emitting do
    let a ← access place
    Lift.store kind.width a.addr (match kind with
      | .byte | .byteU => .low .byte src
      | .half | .halfU => .low .half src
      | .fraction => .low .half (.lsr .word src (.const .word 16))
      | .word | .address | .double | .addressPair => src)
    emitAll a.updates

/-- Write one bit of a byte. -/
def storeBit (s : Source) : Plan := do
  let place ← s.place 0
  let pos ← s.count 1
  let value ← s.imm 2
  let kept := ~~~((1 : Value) <<< (pos % 64)) &&& 0xFF
  let put := (BitVec.ofInt 64 value &&& 1) <<< (pos % 64)
  emitting do
    let a ← access place
    Lift.store .byte a.addr
      (.or .byte (.and .byte (.load .byte a.addr) (.const .byte kept)) (.const .byte put))
    emitAll a.updates

def loadModifyStore (s : Source) : Plan := do
  let place ← s.place 0
  let (value, mask) ← s.pair 1
  emitting do
    let a ← access place
    let addr ← temp a.addr
    Lift.store .word addr (masked (.load .word addr) (.reg value) (.reg mask))
    emitAll a.updates

def swap (s : Source) : Plan := do
  let place ← s.place 0
  let r ← s.reg 1
  emitting do
    let a ← access place
    let addr ← temp a.addr
    let old ← temp (.load .word addr)
    Lift.store .word addr (.reg r)
    set r old
    emitAll a.updates

/-- Store the low register of the pair if memory holds what the high one does; the low register
gets the old word either way. -/
def compareSwap (s : Source) : Plan := do
  let place ← s.place 0
  let (value, expected) ← s.pair 1
  emitting do
    let a ← access place
    let addr ← temp a.addr
    let old ← temp (.load .word addr)
    let hit ← newLabel
    let miss ← newLabel
    emit (.branch (.compare .eq .word old (.reg expected)) hit miss)
    mark hit
    Lift.store .word addr (.reg value)
    mark miss
    set value old
    emitAll a.updates

def swapMasked (s : Source) : Plan := do
  let place ← s.place 0
  let (value, mask) ← s.pair 1
  emitting do
    let a ← access place
    let addr ← temp a.addr
    let old ← temp (.load .word addr)
    Lift.store .word addr (masked old (.reg value) (.reg mask))
    set value old
    emitAll a.updates

/-- An intrinsic on the address of a memory operand. -/
def addressed (i : Intrinsic) (outputs : List Register) (s : Source) : Plan := do
  let place ← s.place 0
  emitting do
    let a ← access place
    intrinsic i outputs [a.addr]
    emitAll a.updates

def context (i : Intrinsic) (s : Source) : Plan := addressed i (contextOutputs i) s

def cache (i : Intrinsic) (s : Source) : Plan := addressed i [] s

end Plan

end Tricore.Lift
