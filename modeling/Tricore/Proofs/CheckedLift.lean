import Mathlib
import Tricore.Proofs.CheckedArithmetic
import Tricore.Proofs.Frugality
import Tricore.Proofs.Plans

/-!
# Lifting in range

The plans that take pairs apart or work with positions and widths, with their operations checked, and
`Checked.plan`, which is the checked plan of an action. An action without an operation that has a
range keeps its plan. Positions and widths come from fields of five bits in every row that shifts by
them (`Opcode.positions_narrow`).

`Checked.lift` also checks the counters of temporaries and labels, which have eight and thirty-two
bits, and that the flags written are the declared ones. Main statement: for a decoded instruction and
a host with two labels to spare it always has a result, and the result is that of `Instruction.lift`.
-/

namespace Tricore

namespace Checked

open Lift (Source Amount Addressed Gives)

variable (s : Source)

/-! ## Pairs and places -/

def halves : Register → Option (Option (Register × Register))
  | .e n => do return some (.d n, .d (← add 8 n 1))
  | .p n => do return some (.a n, .a (← add 8 n 1))
  | _ => some none

theorem halves_eq {r : Register} (h : r.Present) : halves r = some r.halves? := by
  cases r with
  | e n | p n =>
    have hn : n + 1 < 2 ^ 8 := by have := h.1; omega
    simp [halves, Register.halves?, add_eq hn]
  | _ => rfl

def pair (i : Nat) : OptionT Lift.Planning (Register × Register) := do
  match ← within (halves (← s.reg i)) with
  | some halves => return halves
  | none => s.bad _ i

def pairParts (pair : Register) : Option (Register × Register) := do
  return (← halves pair).getD (pair, pair)

def access : Place → OptionT Lift.Emit Addressed
  | .bitReverse pair => do
    let (base, index) ← within (pairParts pair)
    let addr ← Lift.temp (.add .word (.reg base) (.and .word (.reg index) (.const .word 0xFFFF)))
    return ⟨addr, [.intrinsic .bitReverseStep [index] [.reg index]]⟩
  | .circular pair offset => do
    let (base, state) ← within (pairParts pair)
    let index ← Lift.temp (.and .word (.reg state) (.const .word 0xFFFF))
    let length ← Lift.temp (.lsr .word (.reg state) (.const .word 16))
    let addr ← Lift.temp (.add .word (.reg base) index)
    let stepped ← Lift.temp (.add .word index (.word offset))
    let stepped ← Lift.temp (.select .word (.compare .slt .word stepped (.const .word 0))
      (.add .word stepped length) stepped)
    let wrapped := Expr.select .word (.compare .sge .word stepped length)
      (.sub .word stepped length) stepped
    return ⟨addr, [.setReg state (.or .word (.shl .word length (.const .word 16))
      (.and .word wrapped (.const .word 0xFFFF)))]⟩
  -- The other modes use one register.
  | place => liftM (Lift.access place)

theorem access_eq {place : Place} (h : ∀ r ∈ place.register?, r.Present) :
    access place = liftM (Lift.access place) := by
  have hparts {r : Register} (hr : r.Present) : pairParts r = some (Lift.pairParts r) := by
    simp [pairParts, Lift.pairParts, halves_eq hr]
  cases place with
  | bitReverse r => simp [access, Lift.access, hparts (h r rfl)]
  | circular r offset => simp [access, Lift.access, Lift.circular, hparts (h r rfl)]
  | _ => rfl

def loadAddress : OptionT Lift.Planning Unit := do
  let dst ← s.reg 0
  let place ← s.place 1
  emitting do Lift.set dst (← access place).addr

def load (kind : Access) : OptionT Lift.Planning Unit := do
  let dst ← s.reg 0
  let place ← s.place 1
  emitting do
    let a ← access place
    let loaded := Expr.load kind.width a.addr
    Lift.set dst (match kind with
      | .byte | .half => .sext .word loaded
      | .byteU | .halfU => .zext .word loaded
      | .fraction => .shl .word (.zext .word loaded) (.const .word 16)
      | .word | .address | .double | .addressPair => loaded)
    Lift.emitAll a.updates

def store (kind : Access) : OptionT Lift.Planning Unit := do
  let place ← s.place 0
  let src ← s.value 1
  emitting do
    let a ← access place
    Lift.store kind.width a.addr (match kind with
      | .byte | .byteU => .low .byte src
      | .half | .halfU => .low .half src
      | .fraction => .low .half (.lsr .word src (.const .word 16))
      | .word | .address | .double | .addressPair => src)
    Lift.emitAll a.updates

def storeBit : OptionT Lift.Planning Unit := do
  let place ← s.place 0
  let pos ← s.count 1
  let value ← s.imm 2
  let kept := ~~~(← within (shl (1 : Value) pos)) &&& 0xFF
  let put ← within (shl (BitVec.ofInt 64 value &&& 1) pos)
  emitting do
    let a ← access place
    Lift.store .byte a.addr
      (.or .byte (.and .byte (.load .byte a.addr) (.const .byte kept)) (.const .byte put))
    Lift.emitAll a.updates

def loadModifyStore : OptionT Lift.Planning Unit := do
  let place ← s.place 0
  let (value, mask) ← pair s 1
  emitting do
    let a ← access place
    let addr ← Lift.temp a.addr
    Lift.store .word addr (Lift.masked (.load .word addr) (.reg value) (.reg mask))
    Lift.emitAll a.updates

def swap : OptionT Lift.Planning Unit := do
  let place ← s.place 0
  let r ← s.reg 1
  emitting do
    let a ← access place
    let addr ← Lift.temp a.addr
    let old ← Lift.temp (.load .word addr)
    Lift.store .word addr (.reg r)
    Lift.set r old
    Lift.emitAll a.updates

def compareSwap : OptionT Lift.Planning Unit := do
  let place ← s.place 0
  let (value, expected) ← pair s 1
  emitting do
    let a ← access place
    let addr ← Lift.temp a.addr
    let old ← Lift.temp (.load .word addr)
    let hit ← Lift.newLabel
    let miss ← Lift.newLabel
    Lift.emit (.branch (.compare .eq .word old (.reg expected)) hit miss)
    Lift.mark hit
    Lift.store .word addr (.reg value)
    Lift.mark miss
    Lift.set value old
    Lift.emitAll a.updates

def swapMasked : OptionT Lift.Planning Unit := do
  let place ← s.place 0
  let (value, mask) ← pair s 1
  emitting do
    let a ← access place
    let addr ← Lift.temp a.addr
    let old ← Lift.temp (.load .word addr)
    Lift.store .word addr (Lift.masked old (.reg value) (.reg mask))
    Lift.set value old
    Lift.emitAll a.updates

def addressed (i : Intrinsic) (outputs : List Register) : OptionT Lift.Planning Unit := do
  let place ← s.place 0
  emitting do
    let a ← access place
    Lift.intrinsic i outputs [a.addr]
    Lift.emitAll a.updates

/-! ## Bit fields -/

/-- As many ones as the width says. -/
def ones (width : Nat) : Option Word := do
  return .ofNat 32 (← sub (← shl (1 : Word) width).toNat 1)

theorem ones_eq {width : Nat} (h : width < 32) : ones width = some (.ofNat 32 (1 <<< width) - 1) := by
  interval_cases width <;> rfl

def fieldMask : Amount → Amount → Option Expr
  | .static pos, .static width => do
    let ones ← if 32 ≤ width then some (.allOnes 32) else ones width
    return .word (ones <<< (pos % 32))
  | pos, width => some (Lift.fieldMask pos width)

def field (i : Nat) : OptionT Lift.Planning (Amount × Amount) := do
  match ← s.operand i with
  | .reg (.e n) =>
    match ← within (halves (.e n)) with
    | some (lo, hi) => return (.ofRegister lo, .ofRegister hi)
    | none => s.bad _ i
  | _ => return (← s.amount i, ← s.amount (i + 1))

def extract (sign : Sign) : OptionT Lift.Planning Unit := do
  let dst ← s.reg 0
  let src ← s.value 1
  let (pos, width) ← field s 2
  let shift : BinOp := match sign with | .signed => .asr | .unsigned => .lsr
  match pos, width with
  | .static pos, .static width =>
    let stop ← within (add 32 pos width)
    let up := Expr.const .word (.ofNat 64 (32 - stop))
    let down := Expr.const .word (.ofNat 64 (32 - width))
    emitting <| Lift.set dst (.binary shift .word (.shl .word src up) down)
  | pos, width =>
    emitting do
      let width ← Lift.temp width.expr
      let up := Expr.sub .word (.sub .word (.const .word 32) pos.expr) width
      let down := Expr.sub .word (.const .word 32) width
      Lift.set dst (.binary shift .word (.shl .word src up) down)

def insert : OptionT Lift.Planning Unit := do
  let dst ← s.reg 0
  let base ← s.value 1
  let src ← s.value 2
  let (pos, width) ← field s 3
  emitting do
    let mask ← Lift.temp (← within (fieldMask pos width))
    let placed := Expr.and .word (.shl .word src pos.expr) mask
    Lift.set dst (.or .word (.and .word base (.not .word mask)) placed)

def insertMask : OptionT Lift.Planning Unit := do
  let dst ← s.reg 0
  let src ← s.value 1
  let (pos, width) ← field s 2
  emitting do
    let mask ← within (fieldMask pos width)
    Lift.set dst (.pair mask (.shl .word src pos.expr))

def insertBit (negate : Bool) : OptionT Lift.Planning Unit := do
  let dst ← s.reg 0
  let base ← s.value 1
  let pos ← s.count 2
  let b ← s.bit 3
  let b := if negate then .xor .byte b (.const .byte 1) else b
  let one ← within (shl (1 : Word) pos)
  let cleared := Expr.and .word base (.word (~~~one))
  emitting <| Lift.set dst
    (.or .word cleared (.shl .word (.zext .word b) (.const .word (.ofNat 64 pos))))

@[simp]
theorem fieldMask_eq (pos width : Amount) :
    fieldMask pos width = some (Lift.fieldMask pos width) := by
  cases pos with
  | dynamic => rfl
  | static pos =>
    cases width with
    | dynamic => rfl
    | static width =>
      by_cases hw : 32 ≤ width
      · simp [fieldMask, Lift.fieldMask, hw]
      · simp [fieldMask, Lift.fieldMask, hw, ones_eq (Nat.lt_of_not_le hw)]

section Operands

variable {s}

theorem pair_eq (h : s.Present) (i : Nat) : pair s i = liftM (s.pair i) := by
  unfold pair Source.pair
  cases hr : s.reg i with
  | error => rfl
  | ok r =>
    rw [read_ok_bind, halves_eq (h.reg i r hr)]
    cases hx : r.halves? <;> simp [hx, bind, Except.bind] <;> rfl

theorem field_eq (h : s.Present) (i : Nat) : field s i = liftM (s.field i) := by
  unfold field Source.field
  cases ho : s.operand i with
  | error => rfl
  | ok o =>
    have hp := h.operand i o ho
    have hamounts : (do return (← s.amount i, ← s.amount (i + 1)) :
        OptionT Lift.Planning (Amount × Amount)) =
        liftM (do return (← s.amount i, ← s.amount (i + 1)) : Lift.Read (Amount × Amount)) := by
      cases s.amount i with
      | error => rfl
      | ok => cases s.amount (i + 1) <;> rfl
    cases o with
    | reg r =>
      cases r with
      | e n =>
        show ((within (halves (.e n)) : OptionT Lift.Planning _) >>= _) = _
        rw [halves_eq (r := .e n) hp]
        rfl
      | _ => exact hamounts
    | _ => exact hamounts

theorem loadAddress_eq (h : s.Present) : loadAddress s = liftM (Lift.Plan.loadAddress s) :=
  read_eq .any fun _ _ => read_eq (h.place 1) fun _ hp => emitting_eq (by simp [access_eq hp])

theorem load_eq (h : s.Present) (kind : Access) :
    load s kind = liftM (Lift.Plan.load kind s) :=
  read_eq .any fun _ _ => read_eq (h.place 1) fun _ hp =>
    emitting_eq (by cases kind <;> simp [access_eq hp])

theorem store_eq (h : s.Present) (kind : Access) :
    store s kind = liftM (Lift.Plan.store kind s) :=
  read_eq (h.place 0) fun _ hp => read_eq .any fun _ _ =>
    emitting_eq (by cases kind <;> simp [access_eq hp])

theorem loadModifyStore_eq (h : s.Present) :
    loadModifyStore s = liftM (Lift.Plan.loadModifyStore s) := by
  refine read_eq (h.place 0) fun place hp => ?_
  rw [pair_eq h]
  exact read_eq .any fun _ _ => emitting_eq (by simp [access_eq hp])

theorem swap_eq (h : s.Present) : swap s = liftM (Lift.Plan.swap s) :=
  read_eq (h.place 0) fun _ hp => read_eq .any fun _ _ => emitting_eq (by simp [access_eq hp])

theorem compareSwap_eq (h : s.Present) : compareSwap s = liftM (Lift.Plan.compareSwap s) := by
  refine read_eq (h.place 0) fun place hp => ?_
  rw [pair_eq h]
  exact read_eq .any fun _ _ => emitting_eq (by simp [access_eq hp])

theorem swapMasked_eq (h : s.Present) : swapMasked s = liftM (Lift.Plan.swapMasked s) := by
  refine read_eq (h.place 0) fun place hp => ?_
  rw [pair_eq h]
  exact read_eq .any fun _ _ => emitting_eq (by simp [access_eq hp])

theorem addressed_eq (h : s.Present) (i : Intrinsic) (outputs : List Register) :
    addressed s i outputs = liftM (Lift.Plan.addressed i outputs s) :=
  read_eq (h.place 0) fun _ hp => emitting_eq (by simp [access_eq hp])

theorem insert_eq (h : s.Present) : insert s = liftM (Lift.Plan.insert s) := by
  refine read_eq .any fun _ _ => read_eq .any fun _ _ => read_eq .any fun _ _ => ?_
  rw [field_eq h]
  exact read_eq .any fun _ _ => emitting_eq (by simp)

theorem insertMask_eq (h : s.Present) : insertMask s = liftM (Lift.Plan.insertMask s) := by
  refine read_eq .any fun _ _ => read_eq .any fun _ _ => ?_
  rw [field_eq h]
  exact read_eq .any fun _ _ => emitting_eq (by simp)

end Operands

end Checked

/-! ## Positions -/

/-- The operands that an action shifts by, or adds as positions and widths. -/
def Action.positions : Action → List Nat
  | .extract _ => [2, 3]
  | .insertBit _ => [2]
  | .storeBit => [1]
  | _ => []

/-- The kind is read from a field of at most five bits, or is no immediate. -/
def OperandKind.narrow (k : OperandKind) : Bool :=
  match k with
  | .index | .position | .position2 | .width | .bit => true
  | k => k.shape ≠ .imm

/-- The kinds of the operands without the selectors. -/
def Row.kinds (r : Row) : List OperandKind := r.operands.filter (·.shape ≠ .selector)

theorem Opcode.positions_narrow : ∀ g ∈ table, ∀ r ∈ g.rows, ∀ j ∈ r.action.positions,
    ∀ k ∈ r.kinds[j]?, k.narrow = true := by decide +kernel

namespace Lift

/-- The immediate at the position, if there is one, is less than 32. -/
def Source.Narrow (s : Source) (j : Nat) : Prop :=
  ∀ v, s.operands[j]? = some (.imm v) → 0 ≤ v ∧ v < 32

/-- Less than 32, if it is known. -/
def Amount.Narrow : Amount → Prop
  | static n => n < 32
  | dynamic _ => True

namespace Source.Narrow

variable {s : Source} {j : Nat} (h : s.Narrow j)
include h

theorem toNat_lt {v : Int} (hv : s.operands[j]? = some (.imm v)) :
    (BitVec.ofInt 32 v).toNat < 32 := by
  obtain ⟨h0, h32⟩ := h v hv
  rw [BitVec.toNat_ofInt]
  omega

theorem count : Gives (s.count j) (· < 32) := by
  unfold Source.count Source.imm Source.operand
  cases ho : s.operands[j]? with
  | none => exact .error
  | some o =>
    cases o with
    | imm v => exact .ok (h.toNat_lt ho)
    | _ => exact .error

theorem amount : Gives (s.amount j) Amount.Narrow := by
  unfold Source.amount Source.operand
  cases ho : s.operands[j]? with
  | none => exact .error
  | some o =>
    cases o with
    | imm v => exact .ok (h.toNat_lt ho)
    | reg r => exact .ok trivial
    | _ => exact .error

theorem field (h' : s.Narrow (j + 1)) :
    Gives (s.field j) fun x => x.1.Narrow ∧ x.2.Narrow := by
  have two : Gives (do return (← s.amount j, ← s.amount (j + 1)))
      fun x => x.1.Narrow ∧ x.2.Narrow :=
    h.amount.bind fun _ hp => h'.amount.bind fun _ hw => .ok ⟨hp, hw⟩
  refine Gives.bind .any fun o _ => ?_
  cases o with
  | reg r =>
    cases r with
    | e n => exact .ok ⟨trivial, trivial⟩
    | _ => exact two
  | _ => exact two

end Source.Narrow

end Lift

namespace OperandKind

variable {format : Format} {fields : Fields} {addr : Address} {k : OperandKind} {o : Operand}

theorem narrow_of_resolve {v : Int} (hk : k.narrow = true)
    (h : k.resolve format fields addr = .ok (.imm v)) : 0 ≤ v ∧ v < 32 := by
  cases k with
  | index | position | position2 | width | bit => cases h; omega
  | signed | unsigned => cases hk
  | dataPair | addressPair => exact nomatch (of_pair_eq_ok h).2
  | based mode =>
    cases mode with
    | bitReverse | circular => exact nomatch (of_pair_eq_ok h).2
    | _ => cases h
  | _ => cases h

end OperandKind

namespace Instruction

variable {isa : Isa} {bytes : List Byte} {addr : Address} {i : Instruction}

/-- Positions and widths of a decoded instruction are less than 32. -/
theorem narrow (h : decode isa bytes addr = .ok i) :
    ∀ j ∈ i.row.action.positions, (Lift.Source.of i).Narrow j := by
  obtain ⟨e, -, -, -, g, hg, hr, hos⟩ := of_decode h
  intro j hj v hv
  -- Kinds and operands stay side by side when the selectors are left out.
  have haligned : List.Forall₂ (fun k o => k.resolve g.format (.extract g.format e.raw) addr = .ok o)
      i.row.kinds (Lift.Source.of i).operands := by
    refine List.rel_filter ?_ (forall₂_of_mapM hos)
    intro k o hko
    simp only [← OperandKind.shape_of_resolve hko]
    cases o with
    | reg r => cases r <;> simp [Operand.shape, Register.shape]
    | _ => simp [Operand.shape]
  obtain ⟨hj', hget⟩ := List.getElem?_eq_some_iff.1 hv
  have hlen := haligned.length_eq
  have hresolve := haligned.get (hlen ▸ hj') hj'
  rw [List.get_eq_getElem, List.get_eq_getElem, hget] at hresolve
  exact OperandKind.narrow_of_resolve
    (Opcode.positions_narrow g hg _ hr j hj _ (List.getElem?_eq_getElem _)) hresolve

end Instruction

namespace Checked

open Lift (Source)

variable {s : Source}

theorem storeBit_eq (h : s.Present) (h1 : s.Narrow 1) :
    storeBit s = liftM (Lift.Plan.storeBit s) := by
  refine read_eq (h.place 0) fun place hp => read_eq h1.count fun pos hpos =>
    read_eq .any fun value _ => ?_
  have hlt : pos < 64 := by omega
  rw [Nat.mod_eq_of_lt hlt, shl_eq hlt, shl_eq hlt]
  simp only [within_some, pure_bind]
  exact emitting_eq (by simp [access_eq hp])

theorem insertBit_eq (h2 : s.Narrow 2) (negate : Bool) :
    insertBit s negate = liftM (Lift.Plan.insertBit negate s) := by
  refine read_eq .any fun dst _ => read_eq .any fun base _ => read_eq h2.count fun pos hpos =>
    read_eq .any fun b _ => ?_
  have hone : (1 : Word) <<< pos = .ofNat 32 (1 <<< pos) := by interval_cases pos <;> rfl
  rw [Nat.mod_eq_of_lt hpos, shl_eq hpos, hone]
  simp only [within_some, pure_bind]
  exact emitting_eq rfl

theorem extract_eq (h : s.Present) (h2 : s.Narrow 2) (h3 : s.Narrow 3) (sign : Sign) :
    extract s sign = liftM (Lift.Plan.extract sign s) := by
  refine read_eq .any fun dst _ => read_eq .any fun src _ => ?_
  rw [field_eq h]
  refine read_eq (h2.field h3) fun x hx => ?_
  obtain ⟨pos, width⟩ := x
  cases pos with
  | dynamic => cases width <;> exact emitting_eq (by cases sign <;> simp)
  | static pos =>
    cases width with
    | dynamic => exact emitting_eq (by cases sign <;> simp)
    | static width =>
      have hsum : pos + width < 2 ^ 32 := by
        have hpos : pos < 32 := hx.1
        have hwidth : width < 32 := hx.2
        omega
      simp only [add_eq hsum, within_some, pure_bind]
      exact emitting_eq rfl

/-! ## Plans -/

/-- The plan of an action, all operations checked. -/
def plan (s : Source) : Action → OptionT Lift.Planning Unit
  | .add => addSub s .add
  | .addSat sign => addSubSat s .add sign
  | .addCarry => carry s false true
  | .addExtended => carry s false false
  | .sub => addSub s .sub
  | .subSat sign => addSubSat s .sub sign
  | .subCarry => carry s true true
  | .subExtended => carry s true false
  | .rsub => rsub s
  | .rsubSat sign => rsubSat s sign
  | .packed op lane => packed s op lane
  | .saturate lane sign => saturated s lane sign
  | .anyEqual lane => anyEqual s lane
  | .shift kind => shift s kind
  | .count kind lane => count s kind lane
  | .condArith subtract negate => condArith s subtract negate
  | .loadAddress => loadAddress s
  | .multiply sign wide sat => multiply s sign wide sat
  | .multiplyAdd subtract sign wide sat => multiplyAdd s subtract sign wide sat
  | .halfMultiply halves hi lo shape sat => halfMultiply s halves hi lo shape sat
  | .fractionMultiply src wide acc round sat => fractionMultiply s src wide acc round sat
  | .divide sign => divide s sign
  | .divideInit lane sign => divideInit s lane sign
  | .extract sign => extract s sign
  | .insert => insert s
  | .insertMask => insertMask s
  | .insertBit negate => insertBit s negate
  | .load kind => load s kind
  | .store kind => store s kind
  | .storeBit => storeBit s
  | .loadModifyStore => loadModifyStore s
  | .swap => swap s
  | .compareSwap => compareSwap s
  | .swapMasked => swapMasked s
  | .context i => addressed s i (Lift.contextOutputs i)
  | .cache i => addressed s i []
  | .updateFlags => updateFlags s
  -- No other plan has an operation with a range.
  | act => liftM (Lift.plan s act)

theorem plan_eq (h : s.Present) (act : Action) (hn : ∀ j ∈ act.positions, s.Narrow j) :
    plan s act = liftM (Lift.plan s act) := by
  cases act with
  | add | sub => exact addSub_eq ..
  | addSat | subSat => exact addSubSat_eq ..
  | addCarry | addExtended | subCarry | subExtended => exact carry_eq ..
  | rsub => exact rsub_eq s
  | rsubSat => exact rsubSat_eq ..
  | packed => exact packed_eq ..
  | saturate => exact saturated_eq ..
  | anyEqual => exact anyEqual_eq ..
  | shift => exact shift_eq ..
  | count => exact count_eq ..
  | condArith => exact condArith_eq ..
  | loadAddress => exact loadAddress_eq h
  | multiply => exact multiply_eq ..
  | multiplyAdd => exact multiplyAdd_eq ..
  | halfMultiply => exact halfMultiply_eq ..
  | fractionMultiply => exact fractionMultiply_eq ..
  | divide => exact divide_eq ..
  | divideInit => exact divideInit_eq ..
  | extract sign =>
    exact extract_eq h (hn 2 (by simp [Action.positions])) (hn 3 (by simp [Action.positions])) sign
  | insert => exact insert_eq h
  | insertMask => exact insertMask_eq h
  | insertBit negate => exact insertBit_eq (hn 2 (by simp [Action.positions])) negate
  | load => exact load_eq h _
  | store => exact store_eq h _
  | storeBit => exact storeBit_eq h (hn 1 (by simp [Action.positions]))
  | loadModifyStore => exact loadModifyStore_eq h
  | swap => exact swap_eq h
  | compareSwap => exact compareSwap_eq h
  | swapMasked => exact swapMasked_eq h
  | context | cache => exact addressed_eq h ..
  | updateFlags => exact updateFlags_eq s
  | _ => rfl

/-! ## Lifting -/

/-- Have the counters stayed in range? They only go up, so their last values decide it. -/
def counted (supply : Lift.Supply) : Option Unit :=
  guard (supply.temps < 2 ^ 8 ∧ supply.labels < 2 ^ 32)

/-- The trace with the effects of an instruction at its end, all operations checked. -/
def lift (i : Instruction) (t : Trace) : ExceptT Lift.OperandError Option Trace :=
  match (plan (.of i) i.row.action).run (.of t) with
  | (.ok none, _, _) => ExceptT.mk none
  | (.ok (some ()), stmts, supply) => do
    let _ ← counted supply
    -- The flags written are asserted to be those declared.
    let _ ← (guard (flagsWritten stmts = i.row.flags) : Option Unit)
    return { t with stmts := t.stmts ++ stmts, nextLabel := supply.labels }
  | (.error e, _, supply) => do
    let _ ← counted supply
    throw e

/-- Lifting a decoded instruction stays in range and gives what lifting gives. -/
theorem lift_eq {isa : Isa} {bytes : List Byte} {addr : Address} {i : Instruction}
    (h : Instruction.decode isa bytes addr = .ok i) {t : Trace} (ht : t.nextLabel < 2 ^ 32 - 2) :
    lift i t = settled (i.lift t) := by
  obtain ⟨enc, -, -, -, g, hg, hr, -⟩ := Instruction.of_decode h
  obtain ⟨e, hp, hemits⟩ := Instruction.plan_of_decode h
  have hrun : (plan (.of i) i.row.action).run (.of t) =
      (.ok (some ()), (e (.of t)).2.1, (e (.of t)).2.2) := by
    rw [plan_eq (Instruction.present h) _ (Instruction.narrow h)]
    show (liftM i.plan : OptionT Lift.Planning Unit).run _ = _
    rw [hp]
    show (_, (e (.of t)).2.1 ++ [], _) = _
    rw [List.append_nil]
  have hfrugal : Lift.Frugal (Lift.emitting e) := hp ▸ Instruction.frugal h
  have hcounted : counted (e (.of t)).2.2 = some () := by
    have htemps : (e (.of t)).2.2.temps ≤ 0 + 8 := hfrugal.temps (.of t)
    have hlabels : (e (.of t)).2.2.labels ≤ t.nextLabel + 2 := hfrugal.labels (.of t)
    exact if_pos ⟨by omega, by omega⟩
  have hflags : flagsWritten (e (.of t)).2.1 = i.row.flags := by
    rw [flagsWritten_eq, hemits.flags, Opcode.flags_listed g hg _ hr]
  rw [Instruction.lift_of_plan hp]
  simp only [lift, hrun, hcounted, hflags, liftM_some_bind]
  rfl

end Checked

end Tricore
