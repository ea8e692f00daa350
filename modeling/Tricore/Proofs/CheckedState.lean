import Mathlib
import Tricore.Exec.Step
import Tricore.Memory.Window
import Tricore.Proofs.CheckedArithmetic

/-!
# Operators, registers and memory in range

What the execution of effects is made of, with the operations that have a range checked: the operators
on values of a width, register and flag access, saved contexts, bit shuffles, and a window of memory.
Registers of sixteen are indexed modulo sixteen; a pair needs the index after its own, which has eight
bits. An offset into a window is a number of 64 bits.

Each definition has an equation that says that it has a result, and that the result is that of the
operation without checks. For registers the equations hold of present ones.
-/

namespace Tricore.Checked

/-! ## Values of a width -/

/-- The low bytes of a value, by a mask. -/
def mask (w : Width) (v : Value) : Option Value :=
  if 8 ≤ w.bytes then some v
  else do
    let bit ← shl (1 : Value) (← mul 32 w.bytes 8)
    return v &&& .ofNat 64 (← sub bit.toNat 1)

@[simp]
theorem mask_eq (w : Width) (v : Value) : mask w v = some (w.cut v) := by
  have hcut {k : Nat} (hk : k < 64) :
      v &&& .ofNat 64 (2 ^ k - 1) = (v.setWidth k).setWidth 64 := by
    have hlt : 2 ^ k - 1 < 2 ^ 64 := by
      have := Nat.pow_lt_pow_right (a := 2) (by decide) hk
      omega
    apply BitVec.eq_of_toNat_eq
    rw [BitVec.toNat_and, BitVec.toNat_ofNat, Nat.mod_eq_of_lt hlt, Nat.and_two_pow_sub_one_eq_mod,
      BitVec.toNat_setWidth, BitVec.toNat_setWidth, Nat.mod_eq_of_lt (a := v.toNat % 2 ^ k)]
    exact (Nat.mod_le _ _).trans_lt v.isLt
  cases w with
  | double => simp [mask, Width.cut, Width.bytes, Width.bits]
  | byte => exact congrArg some (hcut (k := 8) (by decide))
  | half => exact congrArg some (hcut (k := 16) (by decide))
  | word => exact congrArg some (hcut (k := 32) (by decide))

/-- The low bytes of a value with copies of their top bit above them. -/
def signed (w : Width) (v : Value) : Option Value := do
  signExtend v (← mul 32 (min w.bytes 8) 8)

@[simp]
theorem signed_eq (w : Width) (v : Value) : signed w v = some (w.spread v) := by
  have hbits : mul 32 (min w.bytes 8) 8 = some w.bits := by cases w <;> rfl
  rw [signed, hbits]
  exact signExtend_eq (by cases w <;> decide) (by cases w <;> decide)

theorem toInt_spread (w : Width) (v : Value) : (w.spread v).toInt = w.signed v :=
  BitVec.toInt_signExtend_of_le (by cases w <;> decide)

theorem spread_eq_zero {w : Width} {v : Value} : w.spread v = 0 ↔ w.signed v = 0 := by
  rw [← toInt_spread, ← BitVec.toInt_inj]
  rfl

theorem setWidth_cut (w : Width) (v : Value) : (w.cut v).setWidth w.bits = v.setWidth w.bits := by
  rw [Width.cut, BitVec.setWidth_setWidth_of_le _ (by cases w <;> decide), BitVec.setWidth_eq]

theorem cut_cut (w : Width) (v : Value) : w.cut (w.cut v) = w.cut v := by
  rw [Width.cut, setWidth_cut, ← Width.cut]

theorem cut_eq_zero {w : Width} {v : Value} : w.cut v = 0 ↔ v.setWidth w.bits = 0 := by
  constructor
  · intro h
    rw [← setWidth_cut, h]
    exact BitVec.setWidth_zero ..
  · intro h
    rw [Width.cut, h]
    exact BitVec.setWidth_zero ..

/-! ## Operators -/

theorem toNat_clz_lt {k : Nat} {x : BitVec k} (hx : x ≠ 0) : x.clz.toNat < k := by
  have hlt : x.clz.toNat < k % 2 ^ k := BitVec.clz_lt_iff_ne_zero.2 hx
  rwa [Nat.mod_eq_of_lt Nat.lt_two_pow_self] at hlt

/-- A number between two powers of two has its leading zeros counted by them. -/
theorem toNat_clz_eq {k c : Nat} {x : BitVec k} (hc : c < k) (hlow : 2 ^ (k - 1 - c) ≤ x.toNat)
    (hhigh : x.toNat < 2 ^ (k - c)) : x.clz.toNat = c := by
  have hx : x ≠ 0 := by
    rintro rfl
    exact absurd hlow (Nat.not_le.2 (by simp))
  have hlt := toNat_clz_lt hx
  have hbelow := (BitVec.two_pow_sub_clz_le_toNat_of_ne_zero (by omega) hx).trans_lt hhigh
  have habove := hlow.trans_lt BitVec.toNat_lt_two_pow_sub_clz
  rw [Nat.pow_lt_pow_iff_right (by decide)] at hbelow habove
  omega

/-- The zeros above a narrow value do not count once it is shifted to the top. -/
theorem clz_shiftLeft {k : Nat} (hk : k ≤ 64) {x : BitVec k} (hx : x ≠ 0) :
    (x.setWidth 64 <<< (64 - k)).clz = x.clz.setWidth 64 := by
  have hc := toNat_clz_lt hx
  have hlow := BitVec.two_pow_sub_clz_le_toNat_of_ne_zero (by omega) hx
  have hhigh := BitVec.toNat_lt_two_pow_sub_clz (x := x)
  have hscale {a : Nat} : 2 ^ a * 2 ^ (64 - k) = 2 ^ (a + (64 - k)) := (Nat.pow_add ..).symm
  have hshift : (x.setWidth 64 <<< (64 - k)).toNat = x.toNat * 2 ^ (64 - k) := by
    have hfits : x.toNat * 2 ^ (64 - k) < 2 ^ 64 :=
      calc x.toNat * 2 ^ (64 - k) < 2 ^ k * 2 ^ (64 - k) :=
            Nat.mul_lt_mul_of_pos_right x.isLt (Nat.two_pow_pos _)
        _ = 2 ^ 64 := by rw [hscale, Nat.add_sub_cancel' hk]
    have hnarrow : x.toNat < 2 ^ 64 := x.isLt.trans_le (Nat.pow_le_pow_right (by decide) hk)
    rw [BitVec.toNat_shiftLeft, BitVec.toNat_setWidth, Nat.mod_eq_of_lt hnarrow, Nat.shiftLeft_eq,
      Nat.mod_eq_of_lt hfits]
  have hclz : (x.setWidth 64 <<< (64 - k)).clz.toNat = x.clz.toNat := by
    apply toNat_clz_eq (by omega)
    · rw [hshift, show 64 - 1 - x.clz.toNat = k - 1 - x.clz.toNat + (64 - k) by omega, ← hscale]
      exact Nat.mul_le_mul_right _ hlow
    · rw [hshift, show 64 - x.clz.toNat = k - x.clz.toNat + (64 - k) by omega, ← hscale]
      exact Nat.mul_lt_mul_of_pos_right hhigh (Nat.two_pow_pos _)
  apply BitVec.eq_of_toNat_eq
  rw [hclz, BitVec.toNat_setWidth, Nat.mod_eq_of_lt]
  exact x.clz.isLt.trans_le (Nat.pow_le_pow_right (by decide) hk)

def unary (op : UnOp) (w : Width) (v : Value) : Option Value := do
  let width ← mul 32 w.bytes 8
  match op with
  | .clz =>
    let v ← mask w v
    if v = 0 then return .ofNat 64 width
    else return (← shl v (← sub 64 width)).clz
  -- The other operations are defined everywhere.
  | op => return op.apply w v

@[simp]
theorem unary_eq (op : UnOp) (w : Width) (v : Value) : unary op w v = some (op.apply w v) := by
  have hbits : mul 32 w.bytes 8 = some w.bits := by cases w <;> rfl
  have hle : w.bits ≤ 64 := by cases w <;> decide
  have hpos : 64 - w.bits < 64 := by cases w <;> decide
  cases op with
  | clz =>
    simp only [unary, hbits, mask_eq, sub_eq hle, shl_eq hpos, Option.bind_eq_bind,
      Option.bind_some, Option.pure_def, UnOp.apply]
    by_cases hv : v.setWidth w.bits = 0
    · have hclz : (v.setWidth w.bits).clz = .ofNat _ w.bits := BitVec.clz_eq_iff_eq_zero.2 hv
      rw [if_pos (cut_eq_zero.2 hv), hclz]
      cases w <;> rfl
    · rw [if_neg (mt cut_eq_zero.1 hv)]
      exact congrArg some (clz_shiftLeft hle hv)
  | _ => simp [unary, hbits]

/-- A signed quotient, which zero does not have. -/
def quotient (a b : Value) : Option Value := if b = 0 then none else some (a.sdiv b)

/-- A signed remainder, which zero does not have. -/
def remainder (a b : Value) : Option Value := if b = 0 then none else some (a.srem b)

def binary (op : BinOp) (w : Width) (a b : Value) : Option Value := do
  let width ← mul 64 w.bytes 8
  let allOnes ← mask w (.allOnes 64)
  match op with
  | .divS =>
    let x ← signed w a
    let y ← signed w b
    if y = 0 then return allOnes else quotient x y
  | .modS =>
    let x ← signed w a
    let y ← signed w b
    if y = 0 then return a else remainder x y
  | .divU =>
    let x ← mask w a
    let y ← mask w b
    if y = 0 then return allOnes else return x / y
  | .modU =>
    let x ← mask w a
    let y ← mask w b
    if y = 0 then return x else return x % y
  | .shl => if width ≤ b.toNat then return 0 else shl a b.toNat
  | .lsr => if width ≤ b.toNat then return 0 else shr (← mask w a) b.toNat
  | .asr => sar (← signed w a) (min b.toNat (← sub width 1))
  -- The other operations wrap or round.
  | op => return op.apply w a b

theorem sdiv_eq_ofInt (a b : Value) : a.sdiv b = .ofInt 64 (a.toInt.tdiv b.toInt) := by
  rw [← BitVec.toInt_inj, BitVec.toInt_sdiv, BitVec.toInt_ofInt]

theorem srem_eq_ofInt (a b : Value) : a.srem b = .ofInt 64 (a.toInt.tmod b.toInt) := by
  rw [← BitVec.toInt_srem, BitVec.ofInt_toInt]

theorem binary_eq (op : BinOp) (w : Width) (a b : Value) :
    (binary op w a b).map w.cut = some (w.cut (op.apply w a b)) := by
  have hbits : mul 64 w.bytes 8 = some w.bits := by cases w <;> rfl
  have hpos : 0 < w.bits := by cases w <;> decide
  have hle : w.bits ≤ 64 := by cases w <;> decide
  cases op <;> simp only [binary, hbits, mask_eq, signed_eq, sub_eq hpos, Option.bind_eq_bind,
    Option.bind_some, Option.pure_def, Option.map_some, BinOp.apply]
  case divS =>
    by_cases hb : w.signed b = 0
    · rw [if_pos (spread_eq_zero.2 hb), if_pos hb, Option.map_some, cut_cut]
    · rw [if_neg (mt spread_eq_zero.1 hb), if_neg hb, quotient, if_neg (mt spread_eq_zero.1 hb),
        Option.map_some, sdiv_eq_ofInt, toInt_spread, toInt_spread, signedDivide]
  case modS =>
    by_cases hb : w.signed b = 0
    · rw [if_pos (spread_eq_zero.2 hb), if_pos hb, Option.map_some]
    · rw [if_neg (mt spread_eq_zero.1 hb), if_neg hb, remainder, if_neg (mt spread_eq_zero.1 hb),
        Option.map_some, srem_eq_ofInt, toInt_spread, toInt_spread, signedDivide]
  case divU => split <;> simp [cut_cut]
  case modU => split <;> simp [cut_cut]
  case shl =>
    split
    · rfl
    · rw [shl_eq (by omega), Option.map_some]
  case lsr =>
    split
    · rfl
    · rw [shr_eq (by omega), Option.map_some]
  case asr => rw [sar_eq (by omega), Option.map_some]

def compare (op : CmpOp) (w : Width) (a b : Value) : Option Bool := do
  let sa ← signed w a
  let sb ← signed w b
  match op with
  | .slt => return decide (sa.toInt < sb.toInt)
  | .sle => return decide (sa.toInt ≤ sb.toInt)
  | .sgt => return decide (sb.toInt < sa.toInt)
  | .sge => return decide (sb.toInt ≤ sa.toInt)
  | op => return op.apply w a b

@[simp]
theorem compare_eq (op : CmpOp) (w : Width) (a b : Value) :
    compare op w a b = some (op.apply w a b) := by
  cases op <;> simp [compare, CmpOp.apply, toInt_spread]

/-! ## Registers and flags -/

/-- The register that an offset views, if it is one with a name of its own here. -/
def viewed (offset : BitVec 16) : Option (Option Register) :=
  let n := offset.toNat
  if n = 0xFE00 then some (some .pcxi)
  else if n = 0xFE04 then some (some .psw)
  else if n = 0xFE08 then some (some .pc)
  else if 0xFF00 ≤ n ∧ n ≤ 0xFF3C ∧ n % 4 = 0 then do
    return some (.d ((← sub n 0xFF00) / 4))
  else if 0xFF80 ≤ n ∧ n ≤ 0xFFBC ∧ n % 4 = 0 then do
    return some (.a ((← sub n 0xFF80) / 4))
  else some none

@[simp]
theorem viewed_eq (offset : BitVec 16) : viewed offset = some (Register.viewed? offset) := by
  unfold viewed Register.viewed?
  dsimp only
  split_ifs with h1 h2 h3 h4 h5
  · rfl
  · rfl
  · rfl
  · simp [sub_eq h4.1]
  · simp [sub_eq h5.1]
  · rfl

def canonical : Register → Option Register
  | .csfr offset => do return (← viewed offset).getD (.csfr offset)
  | r => some r

@[simp]
theorem canonical_eq (r : Register) : canonical r = some r.canonical := by
  cases r <;> simp [canonical, Register.canonical]

theorem present_canonical {r : Register} (h : r.Present) : r.canonical.Present := by
  cases r with
  | csfr offset =>
    unfold Register.canonical Register.viewed?
    dsimp only
    split_ifs with h1 h2 h3 h4 h5
    · trivial
    · trivial
    · trivial
    · show _ < 16
      omega
    · show _ < 16
      omega
    · trivial
  | _ => exact h

/-- A word of a register file. -/
def word (file : Vector Word 16) (n : Nat) : Option Word := index file.toList (n % 16)

@[simp]
theorem word_eq (file : Vector Word 16) (n : Nat) : word file n = some (file.get (.ofNat 16 n)) := by
  have hlt : n % 16 < file.toList.length := by simp; omega
  rw [word, index, List.getElem?_eq_getElem hlt]
  simp [Vector.get, Fin.ofNat]

/-- The words of a pair, low one first. -/
def words (file : Vector Word 16) (n : Nat) : Option (Word × Word) := do
  return (← word file n, ← word file (← add 8 n 1))

theorem words_eq (file : Vector Word 16) {n : Nat} (h : n < 16) :
    words file n = some (file.get (.ofNat 16 n), file.get (.ofNat 16 (n + 1))) := by
  simp [words, add_eq (w := 8) (show n + 1 < 2 ^ 8 by omega)]

def readRegister (c : Core) (r : Register) : Option Value := do
  match ← canonical r with
  | .d n => return (← word c.d n).setWidth 64
  | .a n => return (← word c.a n).setWidth 64
  | .e n =>
    let (lo, hi) ← words c.d n
    return hi ++ lo
  | .p n =>
    let (lo, hi) ← words c.a n
    return hi ++ lo
  -- The others have a field or an entry of their own.
  | _ => return c.read r

theorem readRegister_eq {r : Register} (h : r.Present) (c : Core) :
    readRegister c r = some (c.read r) := by
  have hp := present_canonical h
  unfold readRegister Core.read
  cases hr : r.canonical with
  | e n | p n =>
    rw [hr] at hp
    simp [hr, words_eq _ hp.1]
  | _ => simp [hr]

/-- Put a word into a register file. -/
def put (file : Vector Word 16) (n : Nat) (v : Word) : Option (Vector Word 16) :=
  if h : n % 16 < 16 then some (file.set (n % 16) v h) else none

@[simp]
theorem put_eq (file : Vector Word 16) (n : Nat) (v : Word) :
    put file n v = some (file.set (n % 16) v (Nat.mod_lt n (by decide))) :=
  dif_pos _

/-- Put words into a pair of registers. -/
def putPair (file : Vector Word 16) (n : Nat) (lo hi : Word) : Option (Vector Word 16) := do
  put (← put file n lo) (← add 8 n 1) hi

def writeRegister (c : Core) (r : Register) (v : Value) : Option Core := do
  let lo : Word := v.setWidth 32
  let hi : Word := (v >>> 32).setWidth 32
  match ← canonical r with
  | .d n => return { c with d := ← put c.d n lo }
  | .a n => return { c with a := ← put c.a n lo }
  | .e n => return { c with d := ← putPair c.d n lo hi }
  | .p n => return { c with a := ← putPair c.a n lo hi }
  | _ => return c.write r v

theorem writeRegister_eq {r : Register} (h : r.Present) (c : Core) (v : Value) :
    writeRegister c r v = some (c.write r v) := by
  have hp := present_canonical h
  unfold writeRegister Core.write
  cases hr : r.canonical with
  | e n | p n =>
    rw [hr] at hp
    have hn : n + 1 < 2 ^ 8 := by have := hp.1; omega
    simp [hr, putPair, add_eq hn, Core.setD, Core.setA]
  | _ => simp [hr, Core.setD, Core.setA]

/-- The bit of a flag in the status word. -/
def flagBit (f : Flag) : Option Word := shl (1 : Word) f.bit

@[simp]
theorem flagBit_eq (f : Flag) : flagBit f = some (BitVec.twoPow 32 f.bit) := by
  cases f <;> rfl

def flag (c : Core) (f : Flag) : Option Bool := do
  return c.psw &&& (← flagBit f) != 0

@[simp]
theorem flag_eq (c : Core) (f : Flag) : flag c f = some (c.flag f) := by
  have hbit : BitVec.twoPow 32 f.bit ≠ 0 := by cases f <;> decide
  unfold flag Core.flag
  rw [flagBit_eq]
  cases hf : c.psw.getLsbD f.bit with
  | false => simp [BitVec.and_twoPow, hf]
  | true => simpa [BitVec.and_twoPow, hf] using hbit

def setFlag (c : Core) (f : Flag) (on : Bool) : Option Core := do
  let bit ← flagBit f
  return { c with psw := if on then c.psw ||| bit else c.psw &&& ~~~bit }

@[simp]
theorem setFlag_eq (c : Core) (f : Flag) (on : Bool) : setFlag c f on = some (c.setFlag f on) := by
  simp [setFlag, Core.setFlag]

/-! ## Interrupts and contexts -/

theorem present_icr : (Register.csfr Core.icr).Present := trivial

def setInterrupts (c : Core) (on : Bool) : Option Core := do
  let bit := BitVec.twoPow 64 15
  let old ← readRegister c (.csfr Core.icr)
  writeRegister c (.csfr Core.icr) (if on then old ||| bit else old &&& ~~~bit)

@[simp]
theorem setInterrupts_eq (c : Core) (on : Bool) :
    setInterrupts c on = some (c.setInterrupts on) := by
  simp [setInterrupts, Core.setInterrupts, readRegister_eq present_icr,
    writeRegister_eq present_icr]

theorem vector_mapM_eq {α β : Type} {n : Nat} {f : α → Option β} {g : α → β} (xs : Vector α n)
    (h : ∀ x ∈ xs, f x = some (g x)) : xs.mapM f = some (xs.map g) := by
  apply Vector.map_toArray_inj.1
  obtain ⟨⟨l⟩, hl⟩ := xs
  rw [Vector.toArray_mapM, List.mapM_toArray, mapM_eq_map (by simpa using h)]
  simp

theorem foldlM_eq_foldl {α β : Type} {f : β → α → Option β} {g : β → α → β} {as : List α}
    (h : ∀ a ∈ as, ∀ b, f b a = some (g b a)) (b : β) : as.foldlM f b = some (as.foldl g b) := by
  induction as generalizing b with
  | nil => rfl
  | cons a as ih =>
    rw [List.foldlM_cons, h a List.mem_cons_self]
    exact ih (fun c hc => h c (List.mem_cons_of_mem a hc)) (g b a)

theorem present_layout (kind : ContextKind) : ∀ r ∈ kind.layout, r.Present := by
  cases kind <;> decide

def saveContext (c : Core) (kind : ContextKind) : Option Core := do
  let words ← kind.layout.mapM fun r => do return (← readRegister c r).setWidth 32
  let frames := ⟨kind, words⟩ :: c.frames
  return { c with frames, pcxi := .ofNat 32 frames.length }

@[simp]
theorem saveContext_eq (c : Core) (kind : ContextKind) :
    saveContext c kind = some (c.saveContext kind) := by
  have hwords := vector_mapM_eq kind.layout
    (f := fun r => do return (← readRegister c r).setWidth 32)
    (g := fun r => (c.read r).setWidth 32)
    fun r hr => by simp [readRegister_eq (present_layout kind r hr)]
  rw [saveContext, hwords]
  rfl

def loadContext (c : Core) (kind : ContextKind) (words : Vector Word 16) : Option Core :=
  (kind.layout.zip words).foldlM (fun c (r, w) => writeRegister c r (w.setWidth 64)) c

@[simp]
theorem loadContext_eq (c : Core) (kind : ContextKind) (words : Vector Word 16) :
    loadContext c kind words = some (c.loadContext kind words) := by
  unfold loadContext Core.loadContext
  rw [← Vector.foldlM_toList, ← Vector.foldl_toList]
  refine foldlM_eq_foldl (fun x hx c => writeRegister_eq (present_layout kind x.1 ?_) c _) c
  rw [Vector.toList_zip] at hx
  exact Vector.mem_toList_iff.1 (List.of_mem_zip hx).1

def restoreContext (c : Core) (kind : ContextKind) : ExceptT Trap Option Core :=
  match c.frames with
  | [] => throw (.contextUnderflow c.pc)
  | frame :: frames => liftM <| loadContext { c with frames } kind frame.words

@[simp]
theorem restoreContext_eq (c : Core) (kind : ContextKind) :
    restoreContext c kind = settled (c.restoreContext kind) := by
  unfold restoreContext Core.restoreContext
  cases c.frames with
  | nil => rfl
  | cons frame frames =>
    simp only [loadContext_eq]
    rfl

/-! ## Bit shuffles -/

theorem getLsbD_ofBits (bit : Nat → Bool) (n j : Nat) :
    (ofBits bit n).getLsbD j = (decide (j < n) && bit j) := by
  induction n with
  | zero => simp [ofBits]
  | succ n ih =>
    rw [ofBits, BitVec.getLsbD_cons, ih]
    by_cases hj : j = n
    · simp [hj]
    · simp [hj, show j < n + 1 ↔ j < n by omega]

/-- Is the number of ones odd, of eight bits from `lo` on? -/
def isOdd (x : Word) (lo : Nat) : Bool := (List.range' lo 8).foldl (fun p i => p ^^ x.getLsbD i) false

/-- Add the parity of byte `i`. -/
def parityStep (x acc : Word) (i : Nat) : Option Word := do
  let shift ← mul 32 8 i
  let byte ← shr x shift
  return acc ||| (← shl ((BitVec.ofBool (isOdd byte 0)).setWidth 32) shift)

def parity (x : Word) : Option Word := (List.range 4).foldlM (parityStep x) 0

theorem parityStep_eq (x acc : Word) {i : Nat} (hi : i < 4) :
    parityStep x acc i =
      some (acc ||| (BitVec.ofBool (isOdd x (8 * i))).setWidth 32 <<< (8 * i)) := by
  have hodd : isOdd (x >>> (8 * i)) 0 = isOdd x (8 * i) := by
    simp [isOdd, List.range', Nat.add_assoc]
  have hshift : 8 * i < 32 := by omega
  simp only [parityStep, mul_eq (w := 32) (show 8 * i < 2 ^ 32 by omega), shr_eq hshift,
    shl_eq hshift, hodd, Option.bind_eq_bind, Option.bind_some, Option.pure_def]

@[simp]
theorem parity_eq (x : Word) : parity x = some (Tricore.parity x) := by
  rw [parity, foldlM_eq_foldl fun i hi acc => parityStep_eq x acc (List.mem_range.1 hi)]
  show some (0 ||| (BitVec.ofBool (isOdd x 0)).setWidth 32 <<< 0 |||
      (BitVec.ofBool (isOdd x 8)).setWidth 32 <<< 8 |||
      (BitVec.ofBool (isOdd x 16)).setWidth 32 <<< 16 |||
      (BitVec.ofBool (isOdd x 24)).setWidth 32 <<< 24) =
    some ((BitVec.ofBool (isOdd x 24)).setWidth 8 ++ (BitVec.ofBool (isOdd x 16)).setWidth 8 ++
      (BitVec.ofBool (isOdd x 8)).setWidth 8 ++ (BitVec.ofBool (isOdd x 0)).setWidth 8)
  cases isOdd x 0 <;> cases isOdd x 8 <;> cases isOdd x 16 <;> cases isOdd x 24 <;> rfl

/-- Put bit `i` of `a` and of `b` at their places. -/
def mergeStep (a b acc : Word) (i : Nat) : Option Word := do
  let even ← mul 32 2 i
  let odd ← add 32 even 1
  let high ← shl ((← shr a i) &&& 1) odd
  let low ← shl ((← shr b i) &&& 1) even
  return acc ||| high ||| low

def bmerge (a b : Word) : Option Word := (List.range 16).foldlM (mergeStep a b) 0

/-- Bit `i` of `a` and of `b` at their places. -/
def merged (a b acc : Word) (i : Nat) : Word :=
  acc ||| (a >>> i &&& 1) <<< (2 * i + 1) ||| (b >>> i &&& 1) <<< (2 * i)

theorem mergeStep_eq (a b acc : Word) {i : Nat} (hi : i < 16) :
    mergeStep a b acc i = some (merged a b acc i) := by
  simp [mergeStep, merged, mul_eq (w := 32) (show 2 * i < 2 ^ 32 by omega),
    add_eq (w := 32) (show 2 * i + 1 < 2 ^ 32 by omega), show i < 32 by omega,
    show 2 * i < 32 by omega, show 2 * i + 1 < 32 by omega]

/-- A single bit, moved to its place. -/
theorem getLsbD_shiftLeft_bit {v : Nat} (x : Word) (i k : Nat) {j : Nat} (hj : j < v) :
    ((x >>> i &&& 1).setWidth v <<< k).getLsbD j = (decide (j = k) && x.getLsbD i) := by
  have hone (n : Nat) : (1 : Word).getLsbD n = decide (n = 0) := by
    rw [show (1 : Word) = 1#32 from rfl, BitVec.getLsbD_one]
    simp
  rw [BitVec.getLsbD_shiftLeft, BitVec.getLsbD_setWidth, BitVec.getLsbD_and,
    BitVec.getLsbD_ushiftRight, hone]
  rcases Nat.lt_trichotomy j k with h | h | h
  · simp [h, show j ≠ k by omega]
  · subst h
    simp [hj, show 0 < v by omega]
  · simp [show j ≠ k by omega, show j - k ≠ 0 by omega]

theorem getLsbD_merge (a b : Word) {n j : Nat} (hj : j < 32) :
    ((List.range n).foldl (merged a b) 0).getLsbD j =
      (decide (j < 2 * n) && if j % 2 = 1 then a.getLsbD (j / 2) else b.getLsbD (j / 2)) := by
  induction n with
  | zero => simp
  | succ n ih =>
    have ha := getLsbD_shiftLeft_bit a n (2 * n + 1) hj
    have hb := getLsbD_shiftLeft_bit b n (2 * n) hj
    rw [BitVec.setWidth_eq] at ha hb
    rw [List.range_succ, List.foldl_append, List.foldl_cons, List.foldl_nil, merged,
      BitVec.getLsbD_or, BitVec.getLsbD_or, ih, ha, hb]
    -- The two new places are the even and the odd one after those merged so far.
    rcases (by omega : j < 2 * n ∨ j = 2 * n ∨ j = 2 * n + 1 ∨ 2 * n + 1 < j) with h | h | h | h
    · simp [h, show j ≠ 2 * n by omega, show j ≠ 2 * n + 1 by omega, show j < 2 * (n + 1) by omega]
    · simp [h]
    · simp [h, show (2 * n + 1) / 2 = n by omega, show (2 * n + 1) % 2 = 1 by omega,
        show 2 * n + 1 < 2 * (n + 1) by omega]
    · simp [show j ≠ 2 * n by omega, show j ≠ 2 * n + 1 by omega, show ¬ j < 2 * n by omega,
        show ¬ j < 2 * (n + 1) by omega]

@[simp]
theorem bmerge_eq (a b : Word) : bmerge a b = some (Tricore.bmerge a b) := by
  rw [bmerge, foldlM_eq_foldl fun i hi acc => mergeStep_eq a b acc (List.mem_range.1 hi)]
  refine congrArg some (BitVec.eq_of_getLsbD_eq fun j hj => ?_)
  rw [getLsbD_merge a b hj, Tricore.bmerge, getLsbD_ofBits]

/-- Put every other bit of `x`, counted from `lo`, at place `i`. -/
def gatherStep (x : Word) (lo : Nat) (acc : Value) (i : Nat) : Option Value := do
  let place ← add 32 (← mul 32 2 i) lo
  let bit := ((← shr x place) &&& 1).setWidth 64
  return acc ||| (← shl bit i)

def gather (x : Word) (lo : Nat) : Option Value := (List.range 16).foldlM (gatherStep x lo) 0

def bsplit (x : Word) : Option Value := do
  return (← shl (← gather x 1) 32) ||| (← gather x 0)

theorem gatherStep_eq (x : Word) {lo : Nat} (hlo : lo ≤ 1) (acc : Value) {i : Nat} (hi : i < 16) :
    gatherStep x lo acc i = some (acc ||| (x >>> (2 * i + lo) &&& 1).setWidth 64 <<< i) := by
  have hplace : 2 * i + lo < 32 := by omega
  simp [gatherStep, mul_eq (w := 32) (show 2 * i < 2 ^ 32 by omega),
    add_eq (w := 32) (show 2 * i + lo < 2 ^ 32 by omega), hplace, show i < 64 by omega]

theorem getLsbD_gather (x : Word) (lo : Nat) {n j : Nat} (hj : j < 64) :
    ((List.range n).foldl
        (fun acc i => acc ||| (x >>> (2 * i + lo) &&& 1).setWidth 64 <<< i) (0 : Value)).getLsbD j =
      (decide (j < n) && x.getLsbD (2 * j + lo)) := by
  induction n with
  | zero => simp
  | succ n ih =>
    rw [List.range_succ, List.foldl_append, List.foldl_cons, List.foldl_nil, BitVec.getLsbD_or, ih,
      getLsbD_shiftLeft_bit x _ n hj]
    by_cases h : j = n
    · simp [h]
    · simp [h, show j < n + 1 ↔ j < n by omega]

theorem gather_eq (x : Word) {lo : Nat} (hlo : lo ≤ 1) :
    gather x lo = some ((ofBits (fun i => x.getLsbD (2 * i + lo)) 16).setWidth 64) := by
  rw [gather, foldlM_eq_foldl fun i hi acc => gatherStep_eq x hlo acc (List.mem_range.1 hi)]
  refine congrArg some (BitVec.eq_of_getLsbD_eq fun j hj => ?_)
  rw [getLsbD_gather x lo hj, BitVec.getLsbD_setWidth, getLsbD_ofBits]
  simp [hj]

@[simp]
theorem bsplit_eq (x : Word) : bsplit x = some (Tricore.bsplit x) := by
  have hwide (half : BitVec 16) : (half.setWidth 32).setWidth 64 = half.setWidth 64 :=
    BitVec.eq_of_toNat_eq (by simp)
  have hpair (odd even : BitVec 16) :
      odd.setWidth 64 <<< 32 ||| even.setWidth 64 = (odd.setWidth 32 ++ even.setWidth 32 : Value) := by
    have happend := append_setWidth (w := 64) (odd.setWidth 32) (even.setWidth 32)
    rw [BitVec.setWidth_eq] at happend
    rw [happend, BitVec.or_comm, hwide, hwide]
  simp only [bsplit, gather_eq x (le_refl 1), gather_eq x (Nat.zero_le 1), shl_eq (w := 64) (k := 32)
    (by decide), Option.bind_eq_bind, Option.bind_some, Option.pure_def, hpair]
  rfl

/-! ## Memory -/

/-- The offset of an access, if all of it is inside the window. -/
def offset (w : Window) (addr : Address) (length : Nat) : ExceptT Fault Option Nat := do
  let start := (addr - w.base).toNat
  if addr < w.base then throw (.outside addr length)
  let stop ← liftM <| add 64 start length
  if w.size < stop then throw (.outside addr length)
  return start

/-- Cells from `start` on, inside the window. -/
def cells (w : Window) (start length : Nat) : Option Unit := do
  let stop ← add 64 start length
  guard (start ≤ stop ∧ stop ≤ w.size)

def readByte (w : Window) (addr : Address) : ExceptT Fault Option Byte := do
  let start ← offset w addr 1
  let _ ← liftM <| (guard (start < w.size) : Option Unit)
  return w.bytes.get start

/-- A little-endian value; the cells go through eight bytes. -/
def readValue (w : Window) (addr : Address) (n : Nat) : ExceptT Fault Option Value := do
  let start ← offset w addr n
  let _ ← liftM <| cells w start n
  let _ ← liftM <| (guard (n ≤ 8) : Option Unit)
  return assemble (w.bytes.slice start n)

def writeValue (w : Window) (addr : Address) (n : Nat) (v : Value) :
    ExceptT Fault Option Window := do
  let start ← offset w addr n
  let _ ← liftM <| cells w start n
  let _ ← liftM <| (guard (n ≤ 8) : Option Unit)
  return { w with bytes := w.bytes.putAll start (split n v) }

theorem offset_eq (w : Window) (addr : Address) {length : Nat} (h : length ≤ 8) :
    offset w addr length = settled
      (if w.covers addr length then .ok (w.offset addr) else .error (.outside addr length)) := by
  have hstop : (addr - w.base).toNat + length < 2 ^ 64 := by omega
  unfold offset Window.covers Window.offset
  generalize (addr - w.base).toNat = start at *
  by_cases hbase : addr < w.base
  · simp [hbase, BitVec.not_le.2 hbase]
    rfl
  · by_cases hsize : w.size < start + length
    · simp [hbase, hsize, add_eq hstop, Nat.not_le.2 hsize]
      rfl
    · simp [hbase, hsize, add_eq hstop, BitVec.not_lt.1 hbase, Nat.not_lt.1 hsize]

/-- What an access inside the window may do. -/
theorem covers_iff {w : Window} {addr : Address} {length : Nat} :
    w.covers addr length = true ↔ w.base ≤ addr ∧ w.offset addr + length ≤ w.size := by
  simp [Window.covers]

theorem cells_eq {w : Window} {addr : Address} {length : Nat} (hl : length ≤ 8)
    (h : w.covers addr length = true) : cells w (w.offset addr) length = some () := by
  have hstop : w.offset addr + length < 2 ^ 64 := by
    have : w.offset addr < 2 ^ 32 := (addr - w.base).isLt
    omega
  simp [cells, add_eq hstop, (covers_iff.1 h).2, guard]

theorem readByte_eq (w : Window) (addr : Address) :
    readByte w addr = settled (Bus.readByte w addr) := by
  unfold readByte
  rw [offset_eq w addr (by decide)]
  cases hc : w.covers addr 1 with
  | false => simp [Bus.readByte, hc]
  | true =>
    have hlt : w.offset addr < w.size := (covers_iff.1 hc).2
    simp [Bus.readByte, hc, hlt, guard]

theorem readValue_eq (w : Window) (addr : Address) {n : Nat} (hn : n ≤ 8) :
    readValue w addr n = settled (Bus.read w addr n) := by
  unfold readValue
  rw [offset_eq w addr hn]
  cases hc : w.covers addr n with
  | false => simp [Bus.read, Window.readBytes, hc]
  | true => simp [Bus.read, Window.readBytes, hc, cells_eq hn hc, hn, guard]

theorem length_split (n : Nat) (v : Value) : (split n v).length = n := by
  induction n generalizing v with
  | zero => rfl
  | succ n ih => simp [split, ih]

theorem writeValue_eq (w : Window) (addr : Address) {n : Nat} (hn : n ≤ 8) (v : Value) :
    writeValue w addr n v = settled (w.load addr (split n v)) := by
  unfold writeValue Window.load
  rw [offset_eq w addr hn, length_split]
  cases hc : w.covers addr n with
  | false => simp
  | true => simp [cells_eq hn hc, hn, guard]

end Tricore.Checked
