import Mathlib
import Tricore.Proofs.Fractions

/-!
# Shifts

A shift has a signed count: from zero on it shifts left, and below to the right (`shifted`). Both
directions are computed and one is chosen, so the count of the other one may be far out of range;
`yields_shifted` says that the choice is what was meant for every count from minus the width up to
the width. `ShiftForm` is what the name of an instruction stands for, and `shifts_match_reference`
says what each leaves in its register and in the status word.
-/

namespace Tricore

/-! ## Reference -/

/-- A shift by a signed count, to the right with copies of the sign or with zeros. -/
def shifted (arithmetic : Bool) {k : Nat} (x : BitVec k) (c : Int) : BitVec k :=
  if 0 ≤ c then x <<< c.toNat
  else if arithmetic then x.sshiftRight (-c).toNat
  else x >>> (-c).toNat

/-- Some one-bit leaves the word on its way to the left or to the right. -/
def ShiftsOut (x : Word) (c : Int) : Prop :=
  ∃ j < 32, x.getLsbD j = true ∧ if 0 ≤ c then 32 ≤ j + c else j < -c

instance (x : Word) (c : Int) : Decidable (ShiftsOut x c) :=
  inferInstanceAs (Decidable (∃ j < 32, _ ∧ _))

/-- A count: a constant as it is, or the low bits of a register, signed. -/
def Operand.shiftCount (bits : Nat) (c : Core) : Operand → Int
  | imm v => v
  | o => ((o.word c).setWidth bits).toInt

/-- What the name of a shift stands for. -/
inductive ShiftForm where
  | logical
  | arithmetic
  | saturating
  /-- Both half-words by the same count. -/
  | halves (signed : Bool)
  deriving DecidableEq

namespace ShiftForm

def named : List (String × ShiftForm) :=
  [("sh", logical), ("sha", arithmetic), ("shas", saturating), ("sh.h", halves false),
    ("sha.h", halves true)]

def action : ShiftForm → Action
  | logical => .shift .logical
  | arithmetic => .shift .arithmetic
  | saturating => .shift .saturating
  | halves false => .packed .shift .half
  | halves true => .packed .shiftArithmetic .half

/-- The width of a count. -/
def countBits : ShiftForm → Nat
  | halves _ => 5
  | _ => 6

/-- The result, from the source and the count. -/
def result (x : Word) (c : Int) : ShiftForm → Word
  | logical => shifted false x c
  | arithmetic => shifted true x c
  | saturating =>
    if 0 ≤ c then .ofInt 32 (Sign.signed.clamp .word (x.toInt * 2 ^ c.toNat)) else shifted true x c
  | halves signed => shifted signed (halfWord true x) c ++ shifted signed (halfWord false x) c

/-- A shift to the left that loses more than copies of the sign. -/
def Overflows (x : Word) (c : Int) : Prop :=
  0 ≤ c ∧ ¬ Sign.signed.Fits .word (x.toInt * 2 ^ c.toNat)

instance (x : Word) (c : Int) : Decidable (Overflows x c) := inferInstanceAs (Decidable (_ ∧ _))

/-- The report on a shift. -/
def Reported {β : Type} (m : Machine β) (x : Word) (c : Int) (result : Word) (m' : Machine β) :
    Prop :=
  m.Reports (decide (Overflows x c)) (result.getLsbD 31 ^^ result.getLsbD 30) m'

/-- What becomes of the status word. -/
def Leaves {β : Type} (m : Machine β) (x : Word) (c : Int) (m' : Machine β) (f : ShiftForm) :
    Prop :=
  match f with
  | logical | halves _ => m'.core.psw = m.core.psw
  | arithmetic =>
    Reported m x c (f.result x c) m' ∧ m'.core.flag .c = decide (ShiftsOut x c)
  | saturating => Reported m x c (f.result x c) m' ∧ m'.core.flag .c = m.core.flag .c

/-- What a shift leaves behind. -/
structure Performed {β : Type} (m : Machine β) (f : ShiftForm) (dst : Nat) (x : Word) (c : Int)
    (m' : Machine β) : Prop where
  result : m'.core.read (.d dst) = (f.result x c).setWidth 64
  status : f.Leaves m x c m'

end ShiftForm

/-- The rows of these instructions: counts are registers or constants of no more than their
width. -/
theorem Opcode.shift_rows : ∀ g ∈ table, ∀ r ∈ g.rows, ∀ p ∈ ShiftForm.named,
    r.mnemonic = p.1 → r.action = p.2.action ∧
      (∀ k ∈ r.operands, k.shape = .data ∨
        ∃ bits ∈ [4, 5, 6], bits ≤ p.2.countBits ∧ k = .signed bits) ∧
      ∃ source ∈ [Shape.data, .imm], r.operands.map (·.shape) = [.data, .data, source] ∨
        r.operands.map (·.shape) = [.data, source] := by
  decide +kernel

/-! ## Bits -/

theorem toNat_ofInt_of_lt {l : Nat} {z : Int} (hz : 0 ≤ z) (hl : z < 2 ^ l) :
    (BitVec.ofInt l z).toNat = z.toNat := by
  rw [BitVec.toNat_ofInt, Int.emod_eq_of_lt hz (by exact_mod_cast hl)]

theorem ne_zero_iff_getLsbD {k : Nat} {x : BitVec k} :
    x ≠ 0 ↔ ∃ j < k, x.getLsbD j = true := by
  constructor
  · intro hne
    by_contra hnone
    refine hne (BitVec.eq_of_getLsbD_eq fun j hj => ?_)
    rw [Bool.eq_false_iff.2 fun hbit => hnone ⟨j, hj, hbit⟩]
    exact BitVec.getLsbD_zero.symm
  · rintro ⟨j, -, hbit⟩ rfl
    simp at hbit

/-- What a shift to the left by `32 - n` loses. -/
theorem ushiftRight_ne_zero_iff (x : Word) (n : Nat) :
    x >>> n ≠ 0 ↔ ∃ j < 32, x.getLsbD j = true ∧ n ≤ j := by
  rw [ne_zero_iff_getLsbD]
  constructor
  · rintro ⟨j, -, hbit⟩
    rw [BitVec.getLsbD_ushiftRight] at hbit
    exact ⟨n + j, BitVec.lt_of_getLsbD hbit, hbit, Nat.le_add_right n j⟩
  · rintro ⟨j, hj, hbit, hn⟩
    refine ⟨j - n, by omega, ?_⟩
    rwa [BitVec.getLsbD_ushiftRight, Nat.add_sub_cancel' hn]

/-- The mask has its low bits set; of all bits it is zero minus one. -/
theorem getLsbD_mask {n : Nat} (hn : n ≤ 32) (j : Nat) :
    ((1 : Word) <<< n - 1).getLsbD j = decide (j < n) := by
  have hmask : ((1 : Word) <<< n - 1).toNat = 2 ^ n - 1 := by
    rcases Nat.lt_or_eq_of_le hn with hlt | rfl
    · have hpow : 2 ^ n < 2 ^ 32 := Nat.pow_lt_pow_right (by decide) hlt
      have hpos : 0 < 2 ^ n := Nat.two_pow_pos n
      have hone : (1 : Word).toNat = 1 := rfl
      rw [BitVec.toNat_sub, BitVec.toNat_shiftLeft, hone, Nat.shiftLeft_eq, Nat.one_mul]
      omega
    · decide
  rw [BitVec.getLsbD, hmask, Nat.testBit_two_pow_sub_one]

/-- What a shift to the right by `n` loses. -/
theorem and_mask_ne_zero_iff {n : Nat} (hn : n ≤ 32) (x : Word) :
    x &&& ((1 : Word) <<< n - 1) ≠ 0 ↔ ∃ j < 32, x.getLsbD j = true ∧ j < n := by
  simp only [ne_zero_iff_getLsbD, BitVec.getLsbD_and, getLsbD_mask hn, Bool.and_eq_true,
    decide_eq_true_eq]

/-- The tests for both directions. -/
theorem shiftsOut_iff (x : Word) {c : Int} (hlo : -32 ≤ c) (hhi : c < 32) :
    (if 0 ≤ c then x >>> ((32 : Word) - BitVec.ofInt 32 c).toNat ≠ 0
      else x &&& ((1 : Word) <<< (BitVec.ofInt 32 (-c)).toNat - 1) ≠ 0) ↔ ShiftsOut x c := by
  unfold ShiftsOut
  by_cases hc : 0 ≤ c
  · have hcount : ((32 : Word) - BitVec.ofInt 32 c).toNat = 32 - c.toNat := by
      have hword : (32 : Word).toNat = 32 := rfl
      rw [BitVec.toNat_sub, hword, toNat_ofInt_of_lt hc (by omega)]
      omega
    simp only [if_pos hc, hcount, ushiftRight_ne_zero_iff]
    refine exists_congr fun j => and_congr_right fun _ => and_congr_right fun _ => ?_
    omega
  · have hcount : (BitVec.ofInt 32 (-c)).toNat = (-c).toNat :=
      toNat_ofInt_of_lt (by omega) (by omega)
    simp only [if_neg hc, hcount, and_mask_ne_zero_iff (show (-c).toNat ≤ 32 by omega)]
    refine exists_congr fun j => and_congr_right fun _ => and_congr_right fun _ => ?_
    omega

/-- A field at the bottom is signed by a shift to the top and back. -/
theorem sshiftRight_shiftLeft (x : Word) {u bits : Nat} (hbits : u + bits = 32) (hpos : 0 < bits) :
    (x <<< u).sshiftRight u = (x.setWidth bits).signExtend 32 := by
  refine BitVec.eq_of_getLsbD_eq fun i hi => ?_
  have hlow (j : Nat) (hj : j < bits) : (x <<< u).getLsbD (u + j) = x.getLsbD j := by
    rw [BitVec.getLsbD_shiftLeft, Nat.add_sub_cancel_left]
    simp only [show u + j < 32 by omega, show ¬ u + j < u by omega, decide_true, decide_false,
      Bool.not_false, Bool.and_true, Bool.true_and]
  have hmsb : (x <<< u).msb = (x.setWidth bits).msb := by
    rw [BitVec.msb_eq_getLsbD_last, BitVec.msb_eq_getLsbD_last, BitVec.getLsbD_setWidth,
      decide_eq_true (show bits - 1 < bits by omega), Bool.true_and, ← hlow _ (by omega)]
    congr 1
    omega
  rw [BitVec.getLsbD_sshiftRight, BitVec.getLsbD_signExtend, hmsb]
  by_cases h : i < bits
  · rw [if_pos (show u + i < 32 by omega), if_pos h, hlow i h]
    simp [h, hi]
  · rw [if_neg (show ¬ u + i < 32 by omega), if_neg h]
    simp [hi]

/-! ## Expressions -/

namespace Lift

variable {β : Type} [Bus β] {m : Machine β} {n : Nat} {c : Int}

/-- The choice between both directions. -/
theorem yields_shifted {k l j : Nat} {w : Width} {left a leftBy rightBy : Expr} {x : BitVec k}
    (arithmetic : Bool) (hleft : left.Yields m n ((BitVec.ofBool (decide (0 ≤ c))).setWidth j))
    (hj : 1 ≤ j) (ha : a.Yields m n x) (hl : leftBy.Yields m n (BitVec.ofInt l c))
    (hr : rightBy.Yields m n (BitVec.ofInt l (-c))) (hw : w.bits = k) (hlo : -k ≤ c) (hhi : c < k)
    (hk : k < 2 ^ l) :
    (Expr.select w left (.shl w a leftBy)
      (.binary (if arithmetic then .asr else .lsr) w a rightBy)).Yields m n
        (shifted arithmetic x c) := by
  have hk : (k : Int) < 2 ^ l := by exact_mod_cast hk
  have hright : (Expr.binary (if arithmetic then .asr else .lsr) w a rightBy).Yields m n
      (if arithmetic then x.sshiftRight (BitVec.ofInt l (-c)).toNat
        else x >>> (BitVec.ofInt l (-c)).toNat) := by
    cases arithmetic with
    | true => exact ha.asr hr hw
    | false => exact ha.lsr hr hw
  have h := Expr.Yields.select_by hleft hj (ha.shl hl hw) hright hw
  have hvalue : (if decide (0 ≤ c) then x <<< (BitVec.ofInt l c).toNat
      else if arithmetic then x.sshiftRight (BitVec.ofInt l (-c)).toNat
      else x >>> (BitVec.ofInt l (-c)).toNat) = shifted arithmetic x c := by
    unfold shifted
    by_cases hc : 0 ≤ c
    · rw [if_pos hc, if_pos (decide_eq_true hc), toNat_ofInt_of_lt hc (by omega)]
    · rw [if_neg hc, if_neg (by simpa using hc), toNat_ofInt_of_lt (by omega) (by omega)]
  rwa [hvalue] at h

/-- The source and the count of a shift, once they are read. -/
structure ReadsShift (m : Machine β) (n : Nat) (src count : Expr) (x : Word) (c : Int) : Prop where
  src : src.Yields m n x
  count : count.Yields m n (BitVec.ofInt 32 c)
  lower : -32 ≤ c
  upper : c < 32

namespace ReadsShift

variable {m₁ : Machine β} {n₁ : Nat} {src count : Expr} {x : Word}
  (h : ReadsShift m n src count x c)
include h

theorem mono (hm : m.Grows n m₁) (hn : n ≤ n₁) : ReadsShift m₁ n₁ src count x c :=
  ⟨h.src.mono hm hn, h.count.mono hm hn, h.lower, h.upper⟩

/-- To the left? -/
theorem left : (Expr.compare .sge .word count (.const .word 0)).Decides m n (decide (0 ≤ c)) := by
  have hlower := h.lower
  have hupper := h.upper
  have hword : Width.word.bits = 32 := rfl
  have hleft := h.count.sge (.const 0 hword) hword
  rwa [BitVec.toInt_ofInt_eq_self (by decide) (by omega) (by omega)] at hleft

theorem rightBy : (Expr.neg .word count).Yields m n (BitVec.ofInt 32 (-c)) := by
  rw [BitVec.ofInt_neg]
  exact h.count.neg rfl

theorem word {left : Expr} {j : Nat} (arithmetic : Bool)
    (hleft : left.Yields m n ((BitVec.ofBool (decide (0 ≤ c))).setWidth j)) (hj : 1 ≤ j) :
    (Expr.select .word left (.shl .word src count)
      (.binary (if arithmetic then .asr else .lsr) .word src (.neg .word count))).Yields m n
        (shifted arithmetic x c) :=
  yields_shifted arithmetic hleft hj h.src h.count h.rightBy rfl h.lower h.upper (by decide)

/-- Both kinds of overflow look at 64 bits. -/
theorem wide : (Expr.shl .double (.sext .double src) count).Yields m n
    (BitVec.ofInt 64 x.toInt <<< (BitVec.ofInt 32 c).toNat) :=
  Expr.Yields.shl (Expr.Carries.extend .signed h.src) h.count rfl

/-- To the left they are the exact result. -/
theorem wide_eq (hc : 0 ≤ c) : BitVec.ofInt 64 x.toInt <<< (BitVec.ofInt 32 c).toNat =
    BitVec.ofInt 64 (x.toInt * 2 ^ c.toNat) := by
  have hupper := h.upper
  rw [toNat_ofInt_of_lt hc (by omega), BitVec.shiftLeft_eq_mul_twoPow, ← ofInt_two_pow,
    ← BitVec.ofInt_mul]

theorem fits_wide (hc : 0 ≤ c) : Sign.signed.Fits .double (x.toInt * 2 ^ c.toNat) := by
  have hupper := h.upper
  have habs : |x.toInt * 2 ^ c.toNat| ≤ 2 ^ 31 * 2 ^ 31 :=
    abs_shifted_le (abs_toInt_le x) (by omega)
  exact fits_of_abs_lt (habs.trans_lt (by decide))

/-- The carry: one of two tests is chosen. -/
theorem carry {left : Expr}
    (hleft : left.Yields m n ((BitVec.ofBool (decide (0 ≤ c))).setWidth 32)) :
    (Expr.select .byte left
      (.compare .ne .word (.lsr .word src (.sub .word (.const .word 32) count)) (.const .word 0))
      (.compare .ne .word (.and .word src (.sub .word
        (.shl .word (.const .word 1) (.neg .word count)) (.const .word 1)))
        (.const .word 0))).Decides m n (decide (ShiftsOut x c)) := by
  have hword : Width.word.bits = 32 := rfl
  have hout := (h.src.lsr ((Expr.Yields.const 32 hword).sub h.count hword) hword).ne
    (.const 0 hword) hword
  have hdropped := (h.src.and (((Expr.Yields.const 1 hword).shl h.rightBy hword).sub
    (.const 1 hword) hword) hword).ne (.const 0 hword) hword
  have hselect := Expr.Yields.select_by hleft (by decide) hout hdropped (w := .byte) rfl
  have hvalue := shiftsOut_iff x h.lower h.upper
  by_cases hc : 0 ≤ c
  · rw [if_pos hc] at hvalue
    rw [decide_eq_true hc, if_pos rfl] at hselect
    rw [← decide_eq_decide.2 hvalue]
    exact hselect
  · rw [if_neg hc] at hvalue
    rw [decide_eq_false hc, if_neg Bool.false_ne_true] at hselect
    rw [← decide_eq_decide.2 hvalue]
    exact hselect

/-- The overflow: to the right, what 64 bits hold does not count. -/
theorem overflow {left wide : Expr}
    (hleft : left.Yields m n ((BitVec.ofBool (decide (0 ≤ c))).setWidth 32))
    (hwide : wide.Yields m n (BitVec.ofInt 64 x.toInt <<< (BitVec.ofInt 32 c).toNat)) :
    (Expr.and .byte (.low .byte left) (wide.overflow .word .signed)).Decides m n
      (decide (ShiftForm.Overflows x c)) := by
  have hand := hleft.truth.and (hwide.overflow (w := .word) (s := .signed) (by decide))
  rw [← Bool.decide_and] at hand
  have hvalue : (0 ≤ c ∧ ¬ Sign.signed.Fits .word
      (BitVec.ofInt 64 x.toInt <<< (BitVec.ofInt 32 c).toNat).toInt) ↔
        ShiftForm.Overflows x c := by
    refine and_congr_right fun hc => ?_
    rw [h.wide_eq hc, toInt_ofInt_of_fits (h.fits_wide hc)]
  rwa [decide_eq_decide.2 hvalue] at hand

/-- The clamped result to the left, or the shifted one to the right. -/
theorem saturated {left wide : Expr}
    (hleft : left.Yields m n ((BitVec.ofBool (decide (0 ≤ c))).setWidth 32))
    (hwide : wide.Yields m n (BitVec.ofInt 64 x.toInt <<< (BitVec.ofInt 32 c).toNat)) :
    (Expr.select .word left (wide.saturate .word .signed)
      (.asr .word src (.neg .word count))).Yields m n (ShiftForm.saturating.result x c) := by
  have hlower := h.lower
  have hword : Width.word.bits = 32 := rfl
  have hclamped : (wide.saturate .word .signed).Yields m n (BitVec.ofInt 32
      (Sign.signed.clamp .word
        (BitVec.ofInt 64 x.toInt <<< (BitVec.ofInt 32 c).toNat).toInt)) :=
    hwide.saturate (by decide)
  have hselect := Expr.Yields.select_by hleft (by decide) hclamped (h.src.asr h.rightBy hword) hword
  by_cases hc : 0 ≤ c
  · rw [decide_eq_true hc, if_pos rfl, h.wide_eq hc, toInt_ofInt_of_fits (h.fits_wide hc)]
      at hselect
    rw [ShiftForm.result, if_pos hc]
    exact hselect
  · rw [decide_eq_false hc, if_neg Bool.false_ne_true,
      toNat_ofInt_of_lt (by omega) (by omega)] at hselect
    rw [ShiftForm.result, if_neg hc, shifted, if_neg hc]
    exact hselect

end ReadsShift

theorem yields_lane {src : Expr} {x : Word} (hsrc : src.Yields m n x) (upper : Bool) :
    (src.lane .half upper.toNat).Yields m n (halfWord upper x) := by
  have hne : Lane.half.width ≠ src.width := by
    intro heq
    have hbits := hsrc.bits
    rw [← heq] at hbits
    exact absurd hbits (by decide)
  rw [Expr.lane, if_neg hne]
  cases upper with
  | true => exact yields_half hsrc true
  | false => exact yields_half hsrc false

theorem yields_pack {a b : Expr} {x y : BitVec 16} (ha : a.Yields m n x) (hb : b.Yields m n y) :
    (Expr.pack .half [a, b]).Yields m n (y ++ x) := by
  have hword : Width.word.bits = 32 := rfl
  rw [← or_shiftLeft_halves]
  exact (ha.resize hword).or ((hb.resize hword).shl_const (c := 16) hword (by decide)) hword

/-! ## Statements -/

/-- The statements of a shift of a word, with the operands read. -/
def setShifted (kind : ShiftKind) (dst : Register) (src count : Expr) : Emit Unit :=
  let left := Expr.compare .sge .word count (.const .word 0)
  let rightBy := Expr.neg .word count
  let shl := Expr.shl .word src count
  let asr := Expr.asr .word src rightBy
  match kind with
  | .logical => set dst (.select .word left shl (.lsr .word src rightBy))
  | .arithmetic => do
    let left ← temp left
    let wide ← temp (.shl .double (.sext .double src) count)
    let shiftedOut := Expr.compare .ne .word
      (.lsr .word src (.sub .word (.const .word 32) count)) (.const .word 0)
    let mask := Expr.sub .word (.shl .word (.const .word 1) rightBy) (.const .word 1)
    let dropped := Expr.compare .ne .word (.and .word src mask) (.const .word 0)
    let result ← temp (.select .word left shl asr)
    setFlag .c (.select .byte left shiftedOut dropped)
    status (.and .byte (.low .byte left) (wide.overflow .word .signed)) result.advanced
    set dst result
  | .saturating => do
    let left ← temp left
    let wide ← temp (.shl .double (.sext .double src) count)
    let result ← temp (.select .word left (wide.saturate .word .signed) asr)
    status (.and .byte (.low .byte left) (wide.overflow .word .signed)) result.advanced
    set dst result

/-- The statements of a shift of half-words. -/
def setShiftedHalves (right : BinOp) (dst : Register) (src count : Expr) : Emit Unit :=
  let left := Expr.compare .sge .word count (.const .word 0)
  let rightBy := Expr.low .half (.neg .word count)
  let leftBy := Expr.low .half count
  let shifted := fun i =>
    let half := src.lane .half i
    Expr.select .half left (.shl .half half leftBy) (.binary right .half half rightBy)
  set dst (.pack .half [shifted 0, shifted 1])

section Runs

variable {pc : Address} {s : Supply} {m₁ : Machine β} {dst : Nat} {src count : Expr} {x : Word}
  (h : ReadsShift m s.temps src count x c) (hpsw : m.core.psw = m₁.core.psw)
include h hpsw

theorem runs_logical : (setShifted .logical (.d dst) src count).Runs pc s m fun _ _ m' =>
    ShiftForm.Performed m₁ .logical dst x c m' :=
  .set (h.word false h.left (by decide)) ⟨(Register.Takes.word dst).read_write _ _, hpsw⟩

omit hpsw in
/-- Where overflow is reported, the direction and the exact result are kept first. -/
theorem runs_keepWide {e : Expr → Expr → Emit Unit} {Q : Unit → Supply → Machine β → Prop}
    (hQ : ∀ s' m' left wide, ReadsShift m' s'.temps src count x c →
      left.Yields m' s'.temps ((BitVec.ofBool (decide (0 ≤ c))).setWidth 32) →
      wide.Yields m' s'.temps (BitVec.ofInt 64 x.toInt <<< (BitVec.ofInt 32 c).toNat) →
      m'.core.psw = m.core.psw → (e left wide).Runs pc s' m' Q) :
    (do
      let left ← temp (.compare .sge .word count (.const .word 0))
      let wide ← temp (.shl .double (.sext .double src) count)
      e left wide : Emit Unit).Runs pc s m Q := by
  refine .bind (.temp_truthWord h.left fun m₂ left hgrows₂ hpsw₂ hleft => ?_)
  have h := h.mono hgrows₂ (Nat.le_succ _)
  refine .bind (.temp h.wide (by decide) fun m₃ wide hgrows₃ hpsw₃ hwide => ?_)
  exact hQ _ m₃ left wide (h.mono hgrows₃ (Nat.le_succ _)) (hleft.mono hgrows₃ (Nat.le_succ _))
    hwide (hpsw₃.trans hpsw₂)

theorem runs_arithmetic : (setShifted .arithmetic (.d dst) src count).Runs pc s m fun _ _ m' =>
    ShiftForm.Performed m₁ .arithmetic dst x c m' := by
  refine runs_keepWide h fun s₃ m₃ left wide h hleft hwide hpsw₃ => ?_
  refine .bind (.temp (h.word true hleft (by decide)) (by decide)
    fun m₄ result hgrows₄ hpsw₄ hresult => ?_)
  have h := h.mono hgrows₄ (Nat.le_succ _)
  have hleft := hleft.mono hgrows₄ (Nat.le_succ _)
  have hwide := hwide.mono hgrows₄ (Nat.le_succ _)
  have hflag (f : Flag) : m₄.core.flag f = m₁.core.flag f := by
    rw [Core.flag, Core.flag, hpsw₄, hpsw₃, hpsw]
  refine .bind (.setFlag (h.carry hleft) ?_)
  have hgrows₅ {n : Nat} {t : Bool} : m₄.Grows n (m₄.withCore (·.setFlag .c t)) :=
    (Machine.Grows.refl m₄ n).setFlag
  refine .mono (runs_report ((h.overflow hleft hwide).mono hgrows₅ le_rfl)
    ((hresult.advanced (by decide)).mono hgrows₅ le_rfl) (hresult.mono hgrows₅ le_rfl) (.word dst)
    ((Core.flag_setFlag_of_ne (by decide)).trans (hflag .sv))
    ((Core.flag_setFlag_of_ne (by decide)).trans (hflag .sav))) fun _ _ m₆ hm => ?_
  obtain ⟨hreports, hread, hc⟩ := hm
  exact ⟨hread, hreports, hc.trans (Core.flag_setFlag ..)⟩

theorem runs_saturating : (setShifted .saturating (.d dst) src count).Runs pc s m fun _ _ m' =>
    ShiftForm.Performed m₁ .saturating dst x c m' := by
  refine runs_keepWide h fun s₃ m₃ left wide h hleft hwide hpsw₃ => ?_
  refine .bind (.temp (h.saturated hleft hwide) (by decide)
    fun m₄ result hgrows₄ hpsw₄ hresult => ?_)
  have h := h.mono hgrows₄ (Nat.le_succ _)
  have hleft := hleft.mono hgrows₄ (Nat.le_succ _)
  have hwide := hwide.mono hgrows₄ (Nat.le_succ _)
  have hflag (f : Flag) : m₄.core.flag f = m₁.core.flag f := by
    rw [Core.flag, Core.flag, hpsw₄, hpsw₃, hpsw]
  refine .mono (runs_report (h.overflow hleft hwide) (hresult.advanced (by decide)) hresult
    (.word dst) (hflag .sv) (hflag .sav)) fun _ _ m₅ hm => ?_
  obtain ⟨hreports, hread, hc⟩ := hm
  exact ⟨hread, hreports, hc.trans (hflag .c)⟩

end Runs

theorem runs_halves {pc : Address} {s : Supply} {m₁ : Machine β} {dst : Nat} {src count : Expr}
    {x : Word} (signed : Bool) (h : ReadsShift m s.temps src count x c)
    (hpsw : m.core.psw = m₁.core.psw) (hlo : -16 ≤ c) (hhi : c < 16) :
    (setShiftedHalves (if signed then .asr else .lsr) (.d dst) src count).Runs pc s m
      fun _ _ m' => ShiftForm.Performed m₁ (.halves signed) dst x c m' := by
  have hleftBy : (Expr.low .half count).Yields m s.temps (BitVec.ofInt 16 c) := by
    rw [← setWidth_ofInt (show 16 ≤ 32 by decide)]
    exact h.count.low rfl (by decide)
  have hrightBy : (Expr.low .half (.neg .word count)).Yields m s.temps (BitVec.ofInt 16 (-c)) := by
    rw [← setWidth_ofInt (show 16 ≤ 32 by decide)]
    exact h.rightBy.low rfl (by decide)
  have hhalf (upper : Bool) := yields_shifted signed h.left (by decide)
    (yields_lane h.src upper) hleftBy hrightBy (w := .half) rfl hlo hhi (by decide)
  exact .set (yields_pack (hhalf false) (hhalf true))
    ⟨(Register.Takes.word dst).read_write _ _, hpsw⟩

end Lift

/-! ## Operands -/

namespace Operand

variable {β : Type} [Bus β] {y : Operand} {bits : Nat}

theorem shiftCount_of_data (h : y.shape = .data) (c : Core) :
    y.shiftCount bits c = ((y.word c).setWidth bits).toInt := by
  obtain ⟨n, rfl⟩ := exists_data h
  rfl

/-- A count is read as such, whether it is a register or a constant. -/
theorem yields_shiftCount (hy : y.IsWord) {unused : Value} (hbits : unused.toNat + bits = 32)
    (hpos : 0 < bits) (m : Machine β) (i : Instruction) (n : Nat) :
    (Lift.shiftCount unused y.expr).Yields (m.start i) n
      (BitVec.ofInt 32 (y.shiftCount bits m.core)) := by
  have hword : Width.word.bits = 32 := rfl
  rcases hy with hdata | himm
  · obtain ⟨k, rfl⟩ := exists_data hdata
    have hunused : unused.toNat < 32 := by omega
    have hfield := ((Instruction.yields_data m i k n).shl_const hword hunused).asr_const hword
      hunused
    rwa [sshiftRight_shiftLeft _ hbits hpos] at hfield
  · cases y with
    | imm v =>
      have hconst : (Expr.word (((BitVec.ofInt 32 v).setWidth 64).setWidth 32)).Yields
          (m.start i) n (BitVec.ofInt 32 v) := by
        have hback : ((BitVec.ofInt 32 v).setWidth 64).setWidth 32 = BitVec.ofInt 32 v :=
          (BitVec.setWidth_setWidth_of_le _ (by decide)).trans (BitVec.setWidth_eq _)
        have himm : (Expr.word (BitVec.ofInt 32 v)).Yields (m.start i) n
            (((BitVec.ofInt 32 v).setWidth 64).setWidth 32) := .const _ rfl
        rwa [hback] at himm ⊢
      exact hconst
    | reg r => cases r <;> cases himm
    | _ => cases himm

/-- A count is a signed number of its width. -/
theorem shiftCount_bounds {k : OperandKind} {format : Format} {fields : Fields} {addr : Address}
    (hk : k.shape = .data ∨ ∃ b ∈ [4, 5, 6], b ≤ bits ∧ k = .signed b)
    (h : k.resolve format fields addr = .ok y) (c : Core) :
    -2 ^ (bits - 1) ≤ y.shiftCount bits c ∧ y.shiftCount bits c < 2 ^ (bits - 1) := by
  rcases hk with hdata | ⟨b, -, hb, rfl⟩
  · rw [shiftCount_of_data ((OperandKind.shape_of_resolve h).trans hdata)]
    exact ⟨BitVec.le_toInt _, BitVec.toInt_lt⟩
  · obtain rfl := Except.ok.inj h
    have hpow : (2 : Int) ^ (b - 1) ≤ 2 ^ (bits - 1) :=
      pow_le_pow_right₀ (by decide) (by omega)
    have hlo := BitVec.le_toInt (fields.const.setWidth b)
    have hhi := BitVec.toInt_lt (x := fields.const.setWidth b)
    simp only [shiftCount]
    omega

end Operand

namespace Instruction

section Plans

variable {i : Instruction} {dst : Register} {x y : Expr}

theorem plan_shift {kind : ShiftKind} (ha : i.row.action = .shift kind)
    (hbinary : (Lift.Source.of i).binary = .ok (dst, x, y)) :
    i.plan = Lift.emitting (do
      let src ← Lift.temp x
      let count ← Lift.temp (Lift.shiftCount 26 y)
      Lift.setShifted kind dst src count) := by
  rw [Instruction.plan, ha, Lift.plan, Lift.Plan.shift, hbinary]
  rfl

theorem plan_halfShift {signed : Bool} (ha : i.row.action = (ShiftForm.halves signed).action)
    (hbinary : (Lift.Source.of i).binary = .ok (dst, x, y)) :
    i.plan = Lift.emitting (do
      let src ← Lift.temp x
      let count ← Lift.temp (Lift.shiftCount 27 y)
      Lift.setShiftedHalves (if signed then .asr else .lsr) dst src count) := by
  have hplan : i.plan = Lift.Plan.halfShift (if signed then .asr else .lsr) (.of i) := by
    rw [Instruction.plan, ha]
    cases signed <;> rfl
  rw [hplan, Lift.Plan.halfShift, hbinary]
  rfl

end Plans

variable {β : Type} [Bus β] {isa : Isa} {m : Machine β} {i : Instruction} {f : ShiftForm}
  {dst bits : Nat} {x y : Operand}

/-- The operands of a shift are read first. -/
theorem runs_readShift {e : Expr → Expr → Lift.Emit Unit} {pc : Address} {s : Lift.Supply}
    {unused : Value} {Q : Unit → Lift.Supply → Machine β → Prop} (hx : x.IsWord) (hy : y.IsWord)
    (hbits : unused.toNat + bits = 32) (hpos : 0 < bits)
    (hlo : -32 ≤ y.shiftCount bits m.core) (hhi : y.shiftCount bits m.core < 32)
    (hQ : ∀ s' m' src count,
      Lift.ReadsShift m' s'.temps src count (x.word m.core) (y.shiftCount bits m.core) →
        m'.core.psw = m.core.psw → (e src count).Runs pc s' m' Q) :
    (do
      let src ← Lift.temp x.expr
      let count ← Lift.temp (Lift.shiftCount unused y.expr)
      e src count : Lift.Emit Unit).Runs pc s (m.start i) Q := by
  refine .bind (.temp (hx.yields m i _) (by decide) fun m₁ src hgrows₁ hpsw₁ hsrc => ?_)
  have hcount := (Operand.yields_shiftCount hy hbits hpos m i s.temps).mono hgrows₁ (Nat.le_succ _)
  refine .bind (.temp hcount (by decide) fun m₂ count hgrows₂ hpsw₂ hcount => ?_)
  exact hQ _ m₂ src count ⟨hsrc.mono hgrows₂ (Nat.le_succ _), hcount, hlo, hhi⟩
    (hpsw₂.trans hpsw₁)

theorem step_shift (hi : m.instruction? isa = some i) (ha : i.row.action = f.action)
    (hbinary : (Lift.Source.of i).binary = .ok (.d dst, x.expr, y.expr)) (hx : x.IsWord)
    (hy : y.IsWord) (hlo : -2 ^ (f.countBits - 1) ≤ y.shiftCount f.countBits m.core)
    (hhi : y.shiftCount f.countBits m.core < 2 ^ (f.countBits - 1)) :
    (m.step isa).2 = .done ∧ f.Performed m dst (x.word m.core)
      (y.shiftCount f.countBits m.core) (m.step isa).1 := by
  cases f with
  | logical =>
    exact Machine.step_of_runs hi (plan_shift ha hbinary) fun s _ =>
      runs_readShift hx hy rfl (by decide) hlo hhi fun _ _ _ _ h hpsw => Lift.runs_logical h hpsw
  | arithmetic =>
    exact Machine.step_of_runs hi (plan_shift ha hbinary) fun s _ =>
      runs_readShift hx hy rfl (by decide) hlo hhi fun _ _ _ _ h hpsw => Lift.runs_arithmetic h hpsw
  | saturating =>
    exact Machine.step_of_runs hi (plan_shift ha hbinary) fun s _ =>
      runs_readShift hx hy rfl (by decide) hlo hhi fun _ _ _ _ h hpsw => Lift.runs_saturating h hpsw
  | halves signed =>
    have hbits : (ShiftForm.halves signed).countBits = 5 := rfl
    rw [hbits] at hlo hhi ⊢
    have hlo : -16 ≤ y.shiftCount 5 m.core := hlo
    have hhi : y.shiftCount 5 m.core < 16 := hhi
    exact Machine.step_of_runs hi (plan_halfShift ha hbinary) fun s _ =>
      runs_readShift hx hy rfl (by decide) (by omega) (by omega) fun _ _ _ _ h hpsw =>
        Lift.runs_halves signed h hpsw hlo hhi

/-- Every operand comes from a kind that its row names. -/
theorem exists_kind {format : Format} {fields : Fields} {addr : Address} {ks : List OperandKind}
    {os : List Operand} (h : List.Forall₂ (fun k o => k.resolve format fields addr = .ok o) ks os) :
    ∀ o ∈ os, ∃ k ∈ ks, k.resolve format fields addr = .ok o := by
  induction h with
  | nil => simp
  | cons hk _ ih =>
    refine List.forall_mem_cons.2 ⟨⟨_, List.mem_cons_self, hk⟩, fun o ho => ?_⟩
    obtain ⟨k, hmem, hresolve⟩ := ih o ho
    exact ⟨k, List.mem_cons_of_mem _ hmem, hresolve⟩

end Instruction

/-! ## All forms -/

/-- Shifts match their reference, for every count that an instruction can have. -/
theorem shifts_match_reference {β : Type} [Bus β] (isa : Isa) (m : Machine β) {i : Instruction}
    {f : ShiftForm} (hi : m.instruction? isa = some i)
    (hname : (i.mnemonic, f) ∈ ShiftForm.named) :
    ∃ (dst : Nat) (x y : Operand), i.operands.head? = some (.reg (.d dst)) ∧
      (i.operands = [.reg (.d dst), x, y] ∨ i.operands = [x, y]) ∧
      -2 ^ (f.countBits - 1) ≤ y.shiftCount f.countBits m.core ∧
      y.shiftCount f.countBits m.core < 2 ^ (f.countBits - 1) ∧ (m.step isa).2 = .done ∧
      f.Performed m dst (x.word m.core) (y.shiftCount f.countBits m.core) (m.step isa).1 := by
  obtain ⟨g, hg, hr, raw, addr, hos⟩ := Instruction.resolved hi
  obtain ⟨ha, hkinds, source, hsource, hshapes⟩ := Opcode.shift_rows g hg i.row hr _ hname rfl
  rw [← Instruction.shapes_of_resolved hos] at hshapes
  have hshapes : i.operands.map (·.shape) = [.whole false, .data, source] ∨
      false = false ∧ i.operands.map (·.shape) = [.data, source] :=
    hshapes.imp_right fun h => ⟨rfl, h⟩
  obtain ⟨dst, x, y, hhead, hops, hx, hy, hbinary⟩ :=
    Instruction.operands_of_product (by simpa using hsource) hshapes
  have hmem : y ∈ i.operands := by rcases hops with hops | hops <;> simp [hops]
  obtain ⟨k, hk, hresolve⟩ := Instruction.exists_kind hos y hmem
  obtain ⟨hlo, hhi⟩ := Operand.shiftCount_bounds (hkinds k hk) hresolve m.core
  exact ⟨dst, x, y, hhead, hops, hlo, hhi, Instruction.step_shift hi ha hbinary hx hy hlo hhi⟩

/-- `sha d3, d1, d1` by -32 leaves the sign alone, and carries a bit that it drops. -/
theorem shifts_match_reference_sha :
    ((sameWords 0xFFFFFFE0 [0x0F, 0x11, 0x10, 0x30]).step .v16).2 = .done ∧
      ((sameWords 0xFFFFFFE0 [0x0F, 0x11, 0x10, 0x30]).step .v16).1.core.read (.d 3) =
        0xFFFFFFFF ∧
      ((sameWords 0xFFFFFFE0 [0x0F, 0x11, 0x10, 0x30]).step .v16).1.core.flag .c = true ∧
      ((sameWords 0xFFFFFFE0 [0x0F, 0x11, 0x10, 0x30]).step .v16).1.core.flag .v = false := by
  obtain ⟨i, hi, hname, hoperands⟩ :
      ∃ i, (sameWords 0xFFFFFFE0 [0x0F, 0x11, 0x10, 0x30]).instruction? .v16 = some i ∧
        (i.mnemonic, ShiftForm.arithmetic) ∈ ShiftForm.named ∧
        i.operands = [.reg (.d 3), .reg (.d 1), .reg (.d 1)] :=
    ⟨_, rfl, by decide +kernel, by decide +kernel⟩
  obtain ⟨dst, x, y, -, hops, -, -, hdone, hperformed⟩ :=
    shifts_match_reference .v16 (sameWords 0xFFFFFFE0 [0x0F, 0x11, 0x10, 0x30]) hi hname
  rw [hoperands] at hops
  obtain ⟨rfl, rfl, rfl⟩ : dst = 3 ∧ x = .reg (.d 1) ∧ y = .reg (.d 1) := by
    simpa [eq_comm] using hops
  obtain ⟨hresult, hreports, hc⟩ := hperformed
  exact ⟨hdone, hresult.trans (by decide +kernel), hc.trans (by decide +kernel),
    hreports.v.trans (by decide +kernel)⟩

end Tricore
