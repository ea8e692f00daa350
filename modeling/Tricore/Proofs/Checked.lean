import Mathlib.Tactic
import Tricore.Instruction

/-!
# Operations with a range

A machine that checks its arithmetic stops at a sum that leaves its type, a difference below zero, a
shift by the whole width or more, and an index or slice outside a list. Here such an operation is an
`Option` with no result outside its range. Unsigned numbers of `w` bits are naturals below `2 ^ w`.

`Checked.decode` is decoding with every operation checked. Main statement: it always has a result,
and the result is that of `Instruction.decode`.
-/

namespace Tricore

/-- A signed constant is no wider than its field, and offsets are scaled by a word at most. -/
def OperandKind.inRange : OperandKind → Bool
  | .signed bits => 0 < bits && bits ≤ 16
  | .scaled scale | .scaledA15 scale => scale ≤ 4
  | _ => true

theorem Opcode.operands_inRange : ∀ g ∈ table, ∀ r ∈ g.rows, ∀ k ∈ r.operands,
    k.inRange = true := by decide +kernel

namespace Checked

/-! ## Operations -/

/-- Unsigned sum at `w` bits. -/
def add (w a b : Nat) : Option Nat := if a + b < 2 ^ w then some (a + b) else none

/-- Unsigned difference. -/
def sub (a b : Nat) : Option Nat := if b ≤ a then some (a - b) else none

/-- Unsigned product at `w` bits. -/
def mul (w a b : Nat) : Option Nat := if a * b < 2 ^ w then some (a * b) else none

/-- Signed negation. -/
def neg {w : Nat} (v : BitVec w) : Option (BitVec w) := if v.negOverflow then none else some (-v)

/-- Signed difference. -/
def ssub {w : Nat} (a b : BitVec w) : Option (BitVec w) :=
  if a.ssubOverflow b then none else some (a - b)

def shl {w : Nat} (v : BitVec w) (k : Nat) : Option (BitVec w) :=
  if k < w then some (v <<< k) else none

def shr {w : Nat} (v : BitVec w) (k : Nat) : Option (BitVec w) :=
  if k < w then some (v >>> k) else none

/-- Shift right with copies of the top bit. -/
def sar {w : Nat} (v : BitVec w) (k : Nat) : Option (BitVec w) :=
  if k < w then some (v.sshiftRight k) else none

/-- The element at a position. -/
def index {α : Type} (l : List α) (i : Nat) : Option α := l[i]?

/-- The elements from `start` up to `stop`. -/
def slice {α : Type} (l : List α) (start stop : Nat) : Option (List α) :=
  if start ≤ stop ∧ stop ≤ l.length then some ((l.drop start).take (stop - start)) else none

variable {w : Nat}

@[simp]
theorem add_eq {a b : Nat} (h : a + b < 2 ^ w) : add w a b = some (a + b) := if_pos h

@[simp]
theorem sub_eq {a b : Nat} (h : b ≤ a) : sub a b = some (a - b) := if_pos h

@[simp]
theorem mul_eq {a b : Nat} (h : a * b < 2 ^ w) : mul w a b = some (a * b) := if_pos h

@[simp]
theorem shl_eq {v : BitVec w} {k : Nat} (h : k < w) : shl v k = some (v <<< k) := if_pos h

@[simp]
theorem shr_eq {v : BitVec w} {k : Nat} (h : k < w) : shr v k = some (v >>> k) := if_pos h

@[simp]
theorem sar_eq {v : BitVec w} {k : Nat} (h : k < w) : sar v k = some (v.sshiftRight k) := if_pos h

theorem slice_eq {α : Type} {l : List α} {start stop : Nat} (h : start ≤ stop)
    (hl : stop ≤ l.length) : slice l start stop = some ((l.drop start).take (stop - start)) :=
  if_pos ⟨h, hl⟩

/-- The low `width` bits with copies of their top bit above them, by shifting up and down. -/
def signExtend (v : BitVec w) (width : Nat) : Option (BitVec w) := do
  let shift ← sub w width
  let up ← shl v shift
  sar up shift

theorem signExtend_eq {v : BitVec w} {width : Nat} (h0 : 0 < width) (h : width ≤ w) :
    signExtend v width = some ((v.setWidth width).signExtend w) := by
  have hlt : w - width < w := by omega
  have hbits : (v <<< (w - width)).sshiftRight (w - width) =
      (v.setWidth width).signExtend w := by
    apply BitVec.eq_of_getLsbD_eq
    intro i hi
    simp only [BitVec.getLsbD_sshiftRight, BitVec.getLsbD_signExtend, BitVec.getLsbD_shiftLeft,
      BitVec.getLsbD_setWidth, BitVec.msb_eq_getLsbD_last]
    -- Below `width` the bit comes back to its place; above it the top bit of the field is copied.
    rcases Nat.lt_or_ge i width with hlow | hhigh
    · simp [hi, hlow, show w - width + i < w by omega]
    · simp [hi, show ¬ w ≤ i by omega, show ¬ i < width by omega, show ¬ w - width + i < w by omega,
        show w - 1 - (w - width) = width - 1 by omega, show w - 1 < w by omega,
        show ¬ w - 1 < w - width by omega, show width - 1 < width by omega]
  simp [signExtend, h, hlt, hbits]

theorem append_setWidth {k m : Nat} (hi : BitVec k) (lo : BitVec m) :
    (hi ++ lo).setWidth w = lo.setWidth w ||| hi.setWidth w <<< m := by
  apply BitVec.eq_of_getLsbD_eq
  intro i hi'
  simp only [BitVec.getLsbD_setWidth, BitVec.getLsbD_append, BitVec.getLsbD_or,
    BitVec.getLsbD_shiftLeft]
  rcases Nat.lt_or_ge i m with hlow | hhigh
  · simp [hlow, hi']
  · simp [show ¬ i < m by omega, hi', show i - m < w by omega, BitVec.getLsbD_of_ge lo i hhigh]

theorem setWidth_append_append {a b c : Nat} (x : BitVec a) (y : BitVec b) (z : BitVec c) :
    (x ++ (y ++ z)).setWidth w = ((x ++ y) ++ z).setWidth w := by
  simp [BitVec.append_assoc]

/-! ## Fields -/

/-- `len` bits of `raw` from bit `lo` up, at full width. -/
def bits (raw : Word) (lo len : Nat) : Option Word :=
  if 0 < len ∧ lo + len ≤ 32 then some ((bitsAt raw lo len).setWidth 32) else none

@[simp]
theorem bits_eq {raw : Word} {lo len : Nat} (h0 : 0 < len) (h : lo + len ≤ 32) :
    bits raw lo len = some ((bitsAt raw lo len).setWidth 32) := if_pos ⟨h0, h⟩

/-- `hi` put above the `k` low bits that `lo` takes. -/
def join (lo hi : Word) (k : Nat) : Option Word := (shl hi k).map (lo ||| ·)

theorem join_eq {k m : Nat} (hi : BitVec k) (lo : BitVec m) (h : m < 32) :
    join (lo.setWidth 32) (hi.setWidth 32) m = some ((hi ++ lo).setWidth 32) := by
  simp [join, h, append_setWidth hi lo]

def offset10 (raw : Word) : Option Word := do
  join (← bits raw 16 6) (← bits raw 28 4) 6

def offset16 (raw : Word) : Option Word := do
  join (← offset10 raw) (← bits raw 22 6) 10

def offset18 (raw : Word) : Option Word := do
  join (← join (← offset10 raw) (← bits raw 22 4) 10) (← bits raw 12 4) 14

theorem offset10_eq (raw : Word) : offset10 raw = some ((Fields.offset10 raw).setWidth 32) := by
  simp [offset10, join_eq, Fields.offset10]

theorem offset16_eq (raw : Word) : offset16 raw = some ((Fields.offset16 raw).setWidth 32) := by
  simp [offset16, offset10_eq, join_eq, Fields.offset10, Fields.offset16]
  rw [setWidth_append_append]

theorem offset18_eq (raw : Word) : offset18 raw = some ((Fields.offset18 raw).setWidth 32) := by
  simp [offset18, offset10_eq, join_eq, Fields.offset10, Fields.offset18]
  rw [setWidth_append_append, setWidth_append_append]

/-- The register fields, which the long formats have two more of. -/
def registers (f : Format) (raw : Word) : Option Fields := do
  let a ← bits raw 8 4
  let b ← bits raw 12 4
  let low : Fields := { a := a.setWidth 4, b := b.setWidth 4 }
  if f.isShort then
    return low
  else
    let d ← bits raw 24 4
    let c ← bits raw 28 4
    return { low with d := d.setWidth 4, c := c.setWidth 4 }

theorem registers_eq (f : Format) (raw : Word) :
    registers f raw = some (Fields.registers f raw) := by
  cases h : f.isShort <;> simp [registers, Fields.registers, h]

def fields (f : Format) (raw : Word) : Option Fields := do
  let r ← registers f raw
  match f with
  | .abs => return { r with off := (← offset18 raw).setWidth 18 }
  | .absb => return { r with
      off := (← offset18 raw).setWidth 18, pos := (← bits raw 8 3).setWidth 5,
      bit := (← bits raw 11 1).setWidth 1 }
  | .b => return { r with disp := (← join (← bits raw 16 16) (← bits raw 8 8) 16).setWidth 24 }
  | .bit => return { r with
      pos := (← bits raw 16 5).setWidth 5, pos2 := (← bits raw 23 5).setWidth 5 }
  | .bo => return { r with off := (← offset10 raw).setWidth 18 }
  | .bol => return { r with off := (← offset16 raw).setWidth 18 }
  | .brc => return { r with
      const := (← bits raw 12 4).setWidth 16, disp := (← bits raw 16 15).setWidth 24 }
  | .brn => return { r with
      n := (← join (← bits raw 12 4) (← bits raw 7 1) 4).setWidth 5,
      disp := (← bits raw 16 15).setWidth 24 }
  | .brr => return { r with disp := (← bits raw 16 15).setWidth 24 }
  | .rc | .rcr => return { r with const := (← bits raw 12 9).setWidth 16 }
  | .rcpw => return { r with
      const := (← bits raw 12 4).setWidth 16, width := (← bits raw 16 5).setWidth 5,
      pos := (← bits raw 23 5).setWidth 5 }
  | .rcrr => return { r with const := (← bits raw 12 4).setWidth 16 }
  | .rcrw => return { r with
      const := (← bits raw 12 4).setWidth 16, width := (← bits raw 16 5).setWidth 5 }
  | .rlc => return { r with const := (← bits raw 12 16).setWidth 16 }
  | .rr | .rr1 | .rrr | .rrr1 => return { r with n := (← bits raw 16 2).setWidth 5 }
  | .rrpw => return { r with
      width := (← bits raw 16 5).setWidth 5, pos := (← bits raw 23 5).setWidth 5 }
  | .rrrw => return { r with width := (← bits raw 16 5).setWidth 5 }
  | .sb => return { r with disp := (← bits raw 8 8).setWidth 24 }
  | .sbc => return { r with
      disp := (← bits raw 8 4).setWidth 24, const := (← bits raw 12 4).setWidth 16 }
  | .sbr => return { r with disp := (← bits raw 8 4).setWidth 24 }
  | .sbrn => return { r with
      disp := (← bits raw 8 4).setWidth 24, n := (← bits raw 12 4).setWidth 5 }
  | .sc => return { r with const := (← bits raw 8 8).setWidth 16 }
  | .slro | .ssro => return { r with off := (← bits raw 12 4).setWidth 18 }
  | .sro => return { r with off := (← bits raw 12 4).setWidth 18, b := r.a }
  | .src => return { r with const := (← bits raw 12 4).setWidth 16 }
  | .srrs => return { r with n := (← bits raw 6 2).setWidth 5 }
  | .rr2 | .rrr2 | .rrrr | .sys | .slr | .sr | .srr | .ssr => return r

theorem fields_eq (f : Format) (raw : Word) : fields f raw = some (Fields.extract f raw) := by
  cases f <;>
    simp [fields, Fields.extract, registers_eq, offset10_eq, offset16_eq, offset18_eq, join_eq]

def secondary (f : Format) (raw : Word) : Option (Option (BitVec 8)) :=
  match f.secondaryField? with
  | none => return none
  | some (lo, len) => return some ((← bits raw lo len).setWidth 8)

theorem secondary_eq (f : Format) (raw : Word) : secondary f raw = some (f.secondary? raw) := by
  cases f <;> simp [secondary, Format.secondary?, Format.secondaryField?]

/-- The address of an absolute offset, by shifts. -/
def absoluteAddress (off : BitVec 18) : Option Address := do
  let top ← shr (off.setWidth 32) 14
  return (← shl top 28) ||| (off.setWidth 32 &&& 0x3FFF)

def target (kind : TargetKind) (f : Format) (pc : Address) (disp : BitVec 24) : Option Address :=
  let wide : Word := disp.setWidth 32
  match kind with
  | .relative => do
    let signed ← match f with
      | .b => signExtend wide 24
      | .brc | .brn | .brr => signExtend wide 15
      | .sb => signExtend wide 8
      | _ => some wide
    return pc + signed * 2
  | .relativeFar => do
    let far ← add 32 wide.toNat 16
    return pc + (← shl (.ofNat 32 far) 1)
  | .loopBack => return pc + (0xFFFFFFE0 ||| (← shl wide 1))
  | .absolute => return (← shl (wide &&& 0xF00000) 8) ||| (← shl (wide &&& 0x0FFFFF) 1)

theorem absoluteAddress_eq (off : BitVec 18) :
    absoluteAddress off = some (Tricore.absoluteAddress off) := by
  simp only [absoluteAddress, Nat.reduceLT, shr_eq, shl_eq, Option.bind_eq_bind, Option.bind_some,
    Option.pure_def, Option.some.injEq, Tricore.absoluteAddress]
  apply BitVec.eq_of_getLsbD_eq
  intro i hi
  rw [BitVec.getLsbD_append, BitVec.getLsbD_append]
  interval_cases i <;> simp

theorem target_eq (kind : TargetKind) (f : Format) (pc : Address) (disp : BitVec 24) :
    target kind f pc disp = some (kind.target f pc disp) := by
  cases kind with
  | relative => cases f <;> simp [target, TargetKind.target, TargetKind.signedDisp, signExtend_eq]
  | relativeFar =>
    have hfar : (disp.setWidth 32).toNat + 16 < 2 ^ 32 := by simp; omega
    simp only [target, TargetKind.target, add_eq hfar, Option.bind_eq_bind, Option.bind_some,
      Nat.reduceLT, shl_eq, Option.pure_def, BitVec.ofNat_add, BitVec.ofNat_toNat,
      BitVec.setWidth_eq]
    rfl
  | loopBack => simp [target, TargetKind.target]
  | absolute =>
    simp only [target, TargetKind.target, Nat.reduceLT, shl_eq, Option.bind_eq_bind,
      Option.bind_some, Option.pure_def, Option.some.injEq]
    apply BitVec.eq_of_getLsbD_eq
    intro i hi
    rw [BitVec.getLsbD_append, BitVec.getLsbD_append, BitVec.getLsbD_append]
    interval_cases i <;> simp

/-! ## Operands -/

section Errors

variable {ε α β : Type}

/-- A result or an error, with all operations in range. -/
def settled (x : Except ε α) : ExceptT ε Option α := ExceptT.mk (some x)

@[simp]
theorem settled_ok_bind (a : α) (f : α → ExceptT ε Option β) : settled (.ok a) >>= f = f a := rfl

@[simp]
theorem settled_error_bind (e : ε) (f : α → ExceptT ε Option β) :
    settled (.error e) >>= f = settled (.error e) := rfl

@[simp]
theorem liftM_some_bind (a : α) (f : α → ExceptT ε Option β) :
    (liftM (some a) : ExceptT ε Option α) >>= f = f a := rfl

@[simp]
theorem pure_eq_settled (a : α) : (pure a : ExceptT ε Option α) = settled (.ok a) := rfl

theorem settled_bind (x : Except ε α) (f : α → Except ε β) :
    (settled x >>= fun a => settled (f a)) = settled (x >>= f) := by
  cases x <;> rfl

theorem settled_mapM {f : α → ExceptT ε Option β} {g : α → Except ε β} {as : List α}
    (h : ∀ a ∈ as, f a = settled (g a)) : as.mapM f = settled (as.mapM g) := by
  induction as with
  | nil => rfl
  | cons a as ih =>
    rw [List.mapM_cons, List.mapM_cons, h a List.mem_cons_self,
      ih fun b hb => h b (List.mem_cons_of_mem a hb)]
    cases g a with
    | error => rfl
    | ok b => cases as.mapM g <;> rfl

end Errors

def resolve (format : Format) (f : Fields) (addr : Address) :
    OperandKind → ExceptT Nat Option Operand
  | .signed bits => return .imm (← signExtend (f.const.setWidth 32) bits).toInt
  | .target kind => return .target (← target kind format addr f.disp)
  | .absolute => return .place (.absolute (← absoluteAddress f.off))
  | .based mode => do
    let offset ← signExtend (f.off.setWidth 32) 10
    settled (OperandKind.basedPlace mode f.b.toNat offset)
  | .basedLong => return .place (.based (.a f.b.toNat) (← signExtend (f.off.setWidth 32) 16))
  | .scaled scale =>
    return .place (.based (.a f.b.toNat) (.ofNat 32 (← mul 32 f.off.toNat scale)))
  | .scaledA15 scale => return .place (.based (.a 15) (.ofNat 32 (← mul 32 f.off.toNat scale)))
  | .stackSlot => return .place (.based (.a 10) (.ofNat 32 (← mul 32 f.const.toNat 4)))
  -- The other kinds take a field as it is.
  | kind => settled (kind.resolve format f addr)

theorem resolve_eq {k : OperandKind} (h : k.inRange = true) (format : Format) (f : Fields)
    (addr : Address) : resolve format f addr k = settled (k.resolve format f addr) := by
  have hscale {scale : Nat} (hs : scale ≤ 4) : f.off.toNat * scale < 2 ^ 32 :=
    calc f.off.toNat * scale ≤ f.off.toNat * 4 := Nat.mul_le_mul_left _ hs
      _ < 2 ^ 32 := by omega
  cases k with
  | signed bits =>
    simp only [OperandKind.inRange, Bool.and_eq_true, decide_eq_true_eq] at h
    simp [resolve, OperandKind.resolve, signExtend_eq h.1 (by omega : bits ≤ 32),
      BitVec.toInt_signExtend_of_le (by omega : bits ≤ 32)]
  | scaled scale | scaledA15 scale =>
    have hs := hscale (of_decide_eq_true h)
    simp [resolve, OperandKind.resolve, mul_eq hs, BitVec.ofNat_mul]
  | stackSlot =>
    have hs : f.const.toNat * 4 < 2 ^ 32 := by omega
    simp [resolve, OperandKind.resolve, mul_eq hs, BitVec.ofNat_mul]
  | based mode => simp [resolve, OperandKind.resolve, signExtend_eq]
  | target => simp [resolve, OperandKind.resolve, target_eq]
  | absolute => simp [resolve, OperandKind.resolve, absoluteAddress_eq]
  | basedLong => simp [resolve, OperandKind.resolve, signExtend_eq]
  | _ => rfl

/-! ## Decoding -/

/-- The encoding that bytes start with, by index. -/
def encodingOf (bytes : List Byte) : ExceptT Nat Option Instruction.Encoding := do
  if bytes.length < 2 then throw 4
  let b0 ← liftM <| index bytes 0
  let b1 ← liftM <| index bytes 1
  if b0.getLsbD 0 then
    if bytes.length < 4 then throw 4
    let b2 ← liftM <| index bytes 2
    let b3 ← liftM <| index bytes 3
    return ⟨b3 ++ b2 ++ b1 ++ b0, true⟩
  else
    return ⟨(b1 ++ b0).setWidth 32, false⟩

theorem encodingOf_eq (bytes : List Byte) :
    encodingOf bytes = settled (Instruction.encodingOf bytes) := by
  match bytes with
  | [] | [_] => rfl
  | [b0, b1] | [b0, b1, _] | b0 :: b1 :: _ :: _ :: _ =>
    cases hb : b0[0] <;> simp [encodingOf, index, Instruction.encodingOf, hb] <;> rfl

def ofEncoding (isa : Isa) (e : Instruction.Encoding) (addr : Address) :
    ExceptT DecodeError Option Instruction := do
  let primary := Opcode.primaryOf e.raw e.long
  match Opcode.group? primary with
  | none => throw (.unknownPrimary addr primary)
  | some group =>
    let secondary := (← secondary group.format e.raw).getD 0
    match group.find? secondary with
    | none => throw (.unknownSecondary addr primary secondary)
    | some row =>
      if isa.supports row.since then
        let f ← fields group.format e.raw
        let operands ← ExceptT.adapt (.oddPair addr row.mnemonic · e.length)
          (row.operands.mapM (resolve group.format f addr))
        return ⟨addr, e.length, e.raw, primary, group.format, row, operands⟩
      else throw (.requiresV16 addr row.mnemonic e.length)

/-- Decode the instruction that the bytes at `addr` start with, all operations checked. -/
def decode (isa : Isa) (bytes : List Byte) (addr : Address) :
    ExceptT DecodeError Option Instruction := do
  let e ← ExceptT.adapt (.truncated addr · bytes.length) (encodingOf bytes)
  ofEncoding isa e addr

theorem ofEncoding_eq (isa : Isa) (e : Instruction.Encoding) (addr : Address) :
    ofEncoding isa e addr = settled (Instruction.ofEncoding isa e addr) := by
  unfold ofEncoding Instruction.ofEncoding
  simp only [secondary_eq, liftM_some_bind]
  cases hg : Opcode.group? (Opcode.primaryOf e.raw e.long) with
  | none => rfl
  | some group =>
    simp only
    cases hr : group.find? ((group.format.secondary? e.raw).getD 0) with
    | none => rfl
    | some row =>
      have hrow : ∀ k ∈ row.operands, k.inRange = true :=
        Opcode.operands_inRange group (List.mem_of_find?_eq_some hg) row
          (List.mem_of_find?_eq_some hr)
      have hmap := settled_mapM fun k hk =>
        resolve_eq (hrow k hk) group.format (.extract group.format e.raw) addr
      simp only [fields_eq, liftM_some_bind, hmap]
      split
      · cases row.operands.mapM (·.resolve group.format (.extract group.format e.raw) addr) <;> rfl
      · rfl

/-- Decoding stays in range and gives what decoding gives. -/
theorem decode_eq (isa : Isa) (bytes : List Byte) (addr : Address) :
    decode isa bytes addr = settled (Instruction.decode isa bytes addr) := by
  unfold decode Instruction.decode
  rw [encodingOf_eq]
  cases Instruction.encodingOf bytes with
  | error => rfl
  | ok e => exact ofEncoding_eq isa e addr

end Checked

end Tricore
