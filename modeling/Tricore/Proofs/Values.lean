import Mathlib
import Tricore.Proofs.StatusFlags

/-!
# What emitted statements compute

Most instructions keep intermediate results in temporaries, report on them in the status word, and
write their destination last. So what an expression means must not change while flags and further
temporaries are written: `Expr.Yields m n e v` says that `e` has the value `v` at the machine `m`,
and still has it when only the status word and temporaries from `n` on have changed (`Grows`). There
is a rule for each kind of expression, with values as bit vectors of the width of the expression.

`Emit.Runs` says that the statements of an emission complete and where they lead; its rules follow
the emission. `Machine.step_of_runs` carries the result over to a step. `Emit.Traps` is for those
that complete up to one that traps.
-/

namespace Tricore

/-! ## Values that stay -/

namespace Register

/-- The register keeps its value while flags and temporaries from `n` on are written. -/
def Settled (n : Nat) (r : Register) : Prop :=
  match r.canonical with
  | .temp k | .tempWide k => k < n
  | .psw => False
  | _ => True

theorem Settled.mono {r : Register} {n k : Nat} (h : r.Settled n) (hn : n ≤ k) : r.Settled k := by
  unfold Settled at h ⊢
  split at h <;> omega

end Register

namespace Core

variable {c : Core} {n : Nat} {r : Register}

theorem read_setFlag (h : r.Settled n) (f : Flag) (on : Bool) :
    (c.setFlag f on).read r = c.read r := by
  unfold Register.Settled at h
  unfold read
  cases hr : r.canonical <;> simp only [hr] at h ⊢
  all_goals rfl

theorem read_write_temp (h : r.Settled n) {t : Register} (ht : t = .temp n ∨ t = .tempWide n)
    (v : Value) : (c.write t v).read r = c.read r := by
  have hne : r.canonical ≠ t := by
    intro heq
    unfold Register.Settled at h
    rcases ht with rfl | rfl <;> simp [heq] at h
  unfold read
  rcases ht with rfl | rfl
  all_goals
    cases hr : r.canonical <;> rw [hr] at hne
    case temp | tempWide =>
      simp only [write, Register.canonical, List.lookup_cons, beq_eq_false_iff_ne.2 hne]
    all_goals rfl

end Core

namespace Machine

variable {β : Type} {m m₁ m₂ : Machine β} {n k : Nat}

/-- What `m` may become while flags and temporaries from `n` on are written. -/
structure Grows (m : Machine β) (n : Nat) (m' : Machine β) : Prop where
  bus : m'.bus = m.bus
  read : ∀ r : Register, r.Settled n → m'.core.read r = m.core.read r

namespace Grows

theorem refl (m : Machine β) (n : Nat) : m.Grows n m := ⟨rfl, fun _ _ => rfl⟩

theorem trans (h : m.Grows n m₁) (hn : n ≤ k) (h' : m₁.Grows k m₂) : m.Grows n m₂ where
  bus := h'.bus.trans h.bus
  read r hr := (h'.read r (hr.mono hn)).trans (h.read r hr)

theorem setFlag (h : m.Grows n m₁) {f : Flag} {on : Bool} :
    m.Grows n (m₁.withCore (·.setFlag f on)) where
  bus := h.bus
  read r hr := (Core.read_setFlag hr f on).trans (h.read r hr)

theorem temp {t : Register} (ht : t = .temp n ∨ t = .tempWide n) (m : Machine β) (v : Value) :
    m.Grows n (m.withCore (·.write t v)) where
  bus := rfl
  read _ hr := Core.read_write_temp hr ht v

end Grows

/-- What `m` may become while values are kept in the temporaries from `n` up to `n'`. -/
structure Extends (m : Machine β) (n : Nat) (m' : Machine β) (n' : Nat) : Prop where
  grows : m.Grows n m'
  le : n ≤ n'
  psw : m'.core.psw = m.core.psw

namespace Extends

variable {n₁ n₂ : Nat}

theorem refl (m : Machine β) (n : Nat) : m.Extends n m n := ⟨.refl m n, le_rfl, rfl⟩

theorem trans (h : m.Extends n m₁ n₁) (h' : m₁.Extends n₁ m₂ n₂) : m.Extends n m₂ n₂ :=
  ⟨h.grows.trans h.le h'.grows, h.le.trans h'.le, h'.psw.trans h.psw⟩

end Extends

/-- The temporaries below `n` have the values that they have in `m`. -/
def SameTemps (m : Machine β) (n : Nat) (m' : Machine β) : Prop :=
  ∀ k < n, m'.core.read (.temp k) = m.core.read (.temp k) ∧
    m'.core.read (.tempWide k) = m.core.read (.tempWide k)

theorem SameTemps.of_grows {m' : Machine β} (h : m.Grows n m₁) (hn : n ≤ k)
    (h' : m₁.SameTemps k m') : m.SameTemps n m' := by
  intro j hj
  obtain ⟨hword, hwide⟩ := h' j (hj.trans_le hn)
  exact ⟨hword.trans (h.read (.temp j) hj), hwide.trans (h.read (.tempWide j) hj)⟩

/-- What a report in the status word leaves there. -/
structure Reports (m : Machine β) (overflow advanced : Bool) (m' : Machine β) : Prop where
  v : m'.core.flag .v = overflow
  sv : m'.core.flag .sv = (m.core.flag .sv || overflow)
  av : m'.core.flag .av = advanced
  sav : m'.core.flag .sav = (m.core.flag .sav || advanced)

/-- A report that leaves the sticky advanced flag alone. -/
structure ReportsOverflow (m : Machine β) (overflow advanced : Bool) (m' : Machine β) : Prop where
  v : m'.core.flag .v = overflow
  sv : m'.core.flag .sv = (m.core.flag .sv || overflow)
  av : m'.core.flag .av = advanced
  sav : m'.core.flag .sav = m.core.flag .sav

end Machine

/-! ## Expressions -/

namespace Sign

/-- Bits above a value, as its sign says. -/
def widen (s : Sign) (j : Nat) {k : Nat} (x : BitVec k) : BitVec j :=
  match s with
  | signed => x.signExtend j
  | unsigned => x.setWidth j

/-- The number that a bit pattern stands for. -/
def number (s : Sign) {k : Nat} (x : BitVec k) : Int :=
  match s with
  | signed => x.toInt
  | unsigned => x.toNat

end Sign

theorem Width.bits_le (w : Width) : w.bits ≤ 64 := by cases w <;> decide

theorem Width.cut_eq {w : Width} {k : Nat} (hw : w.bits = k) (v : Value) :
    w.cut v = (v.setWidth k).setWidth 64 := by
  subst hw
  rfl

namespace Expr

variable {β : Type} [Bus β] {m m₁ : Machine β} {n n₁ j k : Nat} {w : Width} {a b : Expr}
  {x y : BitVec k}

/-- The expression has this value, and keeps it while flags and temporaries from `n` on are
written. -/
structure Yields (m : Machine β) (n : Nat) (e : Expr) {k : Nat} (v : BitVec k) : Prop where
  bits : e.width.bits = k
  eval : ∀ m', m.Grows n m' → e.eval m' = .ok (v.setWidth 64)

/-- The expression is a byte that tells if something holds. -/
def Decides (m : Machine β) (n : Nat) (e : Expr) (t : Bool) : Prop :=
  e.Yields m n ((BitVec.ofBool t).setWidth 8)

/-- The expression has this value as long as the temporaries below `n` have theirs, whatever becomes
of registers and memory. -/
def Keeps (m : Machine β) (n : Nat) (e : Expr) (v : BitVec k) : Prop :=
  ∀ m', m.SameTemps n m' → e.Yields m' n v

/-- The lowest bit of the expression tells it now. -/
def Tells (m : Machine β) (e : Expr) (t : Bool) : Prop :=
  ∃ v, e.eval m = .ok v ∧ v.getLsbD 0 = t

theorem Yields.mono (h : a.Yields m n x) (hm : m.Grows n m₁) (hn : n ≤ n₁) : a.Yields m₁ n₁ x :=
  ⟨h.bits, fun m' hm' => h.eval m' (hm.trans hn hm')⟩

theorem Yields.along (h : a.Yields m n x) (hm : m.Extends n m₁ n₁) : a.Yields m₁ n₁ x :=
  h.mono hm.grows hm.le

namespace Keeps

theorem yields (h : a.Keeps m n x) : a.Yields m n x := h m fun _ _ => ⟨rfl, rfl⟩

theorem mono (h : a.Keeps m n x) (hm : m.Grows n m₁) (hn : n ≤ n₁) : a.Keeps m₁ n₁ x :=
  fun m' hm' => (h m' (.of_grows hm hn hm')).mono (.refl m' n) hn

theorem along (h : a.Keeps m n x) (hm : m.Extends n m₁ n₁) : a.Keeps m₁ n₁ x :=
  h.mono hm.grows hm.le

end Keeps

namespace Yields

theorem le (h : a.Yields m n x) : k ≤ 64 := h.bits ▸ Width.bits_le _

/-- Values fit their widths, so they survive the way through a container. -/
theorem back (h : a.Yields m n x) : (x.setWidth 64).setWidth k = x := by
  rw [BitVec.setWidth_setWidth_of_le x h.le, BitVec.setWidth_eq]

theorem reg {r : Register} (hr : r.Settled n) (hw : r.width.bits = k)
    (h : m.core.read r = x.setWidth 64) : (Expr.reg r).Yields m n x :=
  ⟨hw, fun _ hm => congrArg Except.ok ((hm.read r hr).trans h)⟩

theorem const (v : Value) (hw : w.bits = k) : (Expr.const w v).Yields m n (v.setWidth k) :=
  ⟨hw, fun _ _ => congrArg Except.ok (Width.cut_eq hw v)⟩

theorem const_double (v : Value) : (Expr.const .double v).Yields m n v := by
  have h : (Expr.const .double v).Yields m n (v.setWidth 64) := .const v rfl
  rwa [BitVec.setWidth_eq] at h

theorem unary {op : UnOp} (ha : a.Yields m n x) (hw : w.bits = j) :
    (Expr.unary op w a).Yields m n ((op.apply w (x.setWidth 64)).setWidth j) := by
  refine ⟨hw, fun m' hm => ?_⟩
  simp only [Expr.eval, ha.eval m' hm, bind, Except.bind]
  exact congrArg Except.ok (Width.cut_eq hw _)

theorem binary {op : BinOp} {l : Nat} {y : BitVec l} (ha : a.Yields m n x) (hb : b.Yields m n y)
    (hw : w.bits = j) :
    (Expr.binary op w a b).Yields m n
      ((op.apply w (x.setWidth 64) (y.setWidth 64)).setWidth j) := by
  refine ⟨hw, fun m' hm => ?_⟩
  simp only [Expr.eval, ha.eval m' hm, hb.eval m' hm, bind, Except.bind]
  exact congrArg Except.ok (Width.cut_eq hw _)

theorem neg (ha : a.Yields m n x) (hw : w.bits = k) : (Expr.neg w a).Yields m n (-x) := by
  have h : (Expr.neg w a).Yields m n ((-x.setWidth 64).setWidth k) := ha.unary hw
  rwa [BitVec.setWidth_neg_of_le ha.le, ha.back] at h

theorem not (ha : a.Yields m n x) (hw : w.bits = k) : (Expr.not w a).Yields m n (~~~x) := by
  have h : (Expr.not w a).Yields m n ((~~~x.setWidth 64).setWidth k) := ha.unary hw
  rwa [BitVec.setWidth_not ha.le, ha.back] at h

theorem add (ha : a.Yields m n x) (hb : b.Yields m n y) (hw : w.bits = k) :
    (Expr.add w a b).Yields m n (x + y) := by
  have h : (Expr.add w a b).Yields m n ((x.setWidth 64 + y.setWidth 64).setWidth k) :=
    ha.binary hb hw
  rwa [BitVec.setWidth_add _ _ ha.le, ha.back, hb.back] at h

theorem sub (ha : a.Yields m n x) (hb : b.Yields m n y) (hw : w.bits = k) :
    (Expr.sub w a b).Yields m n (x - y) := by
  have h : (Expr.sub w a b).Yields m n ((x.setWidth 64 - y.setWidth 64).setWidth k) :=
    ha.binary hb hw
  rwa [BitVec.sub_eq_add_neg, BitVec.setWidth_add _ _ ha.le, BitVec.setWidth_neg_of_le ha.le,
    ha.back, hb.back, ← BitVec.sub_eq_add_neg] at h

theorem mul (ha : a.Yields m n x) (hb : b.Yields m n y) (hw : w.bits = k) :
    (Expr.mul w a b).Yields m n (x * y) := by
  have h : (Expr.mul w a b).Yields m n ((x.setWidth 64 * y.setWidth 64).setWidth k) :=
    ha.binary hb hw
  rwa [BitVec.setWidth_mul _ _ ha.le, ha.back, hb.back] at h

theorem and (ha : a.Yields m n x) (hb : b.Yields m n y) (hw : w.bits = k) :
    (Expr.and w a b).Yields m n (x &&& y) := by
  have h : (Expr.and w a b).Yields m n ((x.setWidth 64 &&& y.setWidth 64).setWidth k) :=
    ha.binary hb hw
  rwa [BitVec.setWidth_and, ha.back, hb.back] at h

theorem or (ha : a.Yields m n x) (hb : b.Yields m n y) (hw : w.bits = k) :
    (Expr.or w a b).Yields m n (x ||| y) := by
  have h : (Expr.or w a b).Yields m n ((x.setWidth 64 ||| y.setWidth 64).setWidth k) :=
    ha.binary hb hw
  rwa [BitVec.setWidth_or, ha.back, hb.back] at h

theorem xor (ha : a.Yields m n x) (hb : b.Yields m n y) (hw : w.bits = k) :
    (Expr.xor w a b).Yields m n (x ^^^ y) := by
  have h : (Expr.xor w a b).Yields m n ((x.setWidth 64 ^^^ y.setWidth 64).setWidth k) :=
    ha.binary hb hw
  rwa [BitVec.setWidth_xor, ha.back, hb.back] at h

section Shifts

variable {l : Nat} {y : BitVec l} (ha : a.Yields m n x) (hb : b.Yields m n y) (hw : w.bits = k)
include ha hb hw

/-- A shift to the left; by the width or more nothing is left. -/
theorem shl : (Expr.shl w a b).Yields m n (x <<< y.toNat) := by
  have h : (Expr.shl w a b).Yields m n ((if w.bits ≤ (y.setWidth 64).toNat then 0
      else x.setWidth 64 <<< (y.setWidth 64).toNat).setWidth k) := ha.binary hb hw
  rw [BitVec.toNat_setWidth_of_le hb.le, hw] at h
  have hshift : (if k ≤ y.toNat then 0 else x.setWidth 64 <<< y.toNat).setWidth k =
      x <<< y.toNat := by
    refine BitVec.eq_of_getLsbD_eq fun i hi => ?_
    have hi64 : i < 64 := lt_of_lt_of_le hi ha.le
    split_ifs with hk
    · simp [BitVec.getLsbD_shiftLeft, show i < y.toNat by omega]
    · simp only [BitVec.getLsbD_setWidth, BitVec.getLsbD_shiftLeft, hi, hi64,
        show i - y.toNat < 64 by omega, decide_true, Bool.true_and]
  rwa [hshift] at h

theorem lsr : (Expr.lsr w a b).Yields m n (x >>> y.toNat) := by
  have h : (Expr.lsr w a b).Yields m n ((if w.bits ≤ (y.setWidth 64).toNat then 0
      else w.cut (x.setWidth 64) >>> (y.setWidth 64).toNat).setWidth k) := ha.binary hb hw
  rw [BitVec.toNat_setWidth_of_le hb.le, Width.cut_eq hw, ha.back, hw] at h
  have hshift : (if k ≤ y.toNat then 0 else x.setWidth 64 >>> y.toNat).setWidth k =
      x >>> y.toNat := by
    refine BitVec.eq_of_toNat_eq ?_
    split_ifs with hk
    · simp [BitVec.ushiftRight_eq_zero hk]
    · have hlt : x.toNat >>> y.toNat < 2 ^ k := lt_of_le_of_lt (Nat.shiftRight_le _ _) x.isLt
      simp only [BitVec.toNat_setWidth, BitVec.toNat_ushiftRight,
        BitVec.toNat_setWidth_of_le ha.le, Nat.mod_eq_of_lt hlt]
  rwa [hshift] at h

/-- An arithmetic shift to the right; by the width or more copies of the sign are left. -/
theorem asr : (Expr.asr w a b).Yields m n (x.sshiftRight y.toNat) := by
  have h : (Expr.asr w a b).Yields m n (((w.spread (x.setWidth 64)).sshiftRight
      (min (y.setWidth 64).toNat (w.bits - 1))).setWidth k) := ha.binary hb hw
  have hspread : w.spread (x.setWidth 64) = x.signExtend 64 := by
    subst hw
    rw [Width.spread, ha.back]
  rw [BitVec.toNat_setWidth_of_le hb.le, hw, hspread] at h
  have hshift : ((x.signExtend 64).sshiftRight (min y.toNat (k - 1))).setWidth k =
      x.sshiftRight y.toNat := by
    refine BitVec.eq_of_getLsbD_eq fun i hi => ?_
    have hle := ha.le
    have hmsb := BitVec.msb_eq_getLsbD_last x
    simp only [BitVec.getLsbD_setWidth, BitVec.getLsbD_sshiftRight, BitVec.getLsbD_signExtend,
      BitVec.msb_signExtend, hi, decide_true, Bool.true_and]
    split_ifs <;> grind
  rwa [hshift] at h

end Shifts

/-- A count below the width, as a constant. -/
theorem toNat_count {c : Value} (hc : c.toNat < k) : (c.setWidth k).toNat = c.toNat := by
  rw [BitVec.toNat_setWidth, Nat.mod_eq_of_lt (hc.trans Nat.lt_two_pow_self)]

theorem shl_const (ha : a.Yields m n x) {c : Value} (hw : w.bits = k) (hc : c.toNat < k) :
    (Expr.shl w a (.const w c)).Yields m n (x <<< c.toNat) :=
  toNat_count hc ▸ ha.shl (.const c hw) hw

theorem lsr_const (ha : a.Yields m n x) {c : Value} (hw : w.bits = k) (hc : c.toNat < k) :
    (Expr.lsr w a (.const w c)).Yields m n (x >>> c.toNat) :=
  toNat_count hc ▸ ha.lsr (.const c hw) hw

theorem asr_const (ha : a.Yields m n x) {c : Value} (hw : w.bits = k) (hc : c.toNat < k) :
    (Expr.asr w a (.const w c)).Yields m n (x.sshiftRight c.toNat) :=
  toNat_count hc ▸ ha.asr (.const c hw) hw

theorem low (ha : a.Yields m n x) (hw : w.bits = j) (hj : j ≤ k) :
    (Expr.low w a).Yields m n (x.setWidth j) := by
  refine ⟨hw, fun m' hm => ?_⟩
  simp only [Expr.eval, ha.eval m' hm, bind, Except.bind]
  refine congrArg Except.ok ?_
  rw [Width.cut_eq hw, BitVec.setWidth_setWidth_of_le x (hj.trans ha.le)]

theorem extend {s : Sign} (ha : a.Yields m n x) (hw : w.bits = j) (hj : k ≤ j) :
    (Expr.extend s w a).Yields m n (s.widen j x) := by
  refine ⟨hw, fun m' hm => ?_⟩
  simp only [Expr.eval, ha.eval m' hm, bind, Except.bind]
  refine congrArg Except.ok ?_
  have hle : j ≤ 64 := hw ▸ Width.bits_le w
  cases s with
  | unsigned => rw [Width.cut_eq hw, BitVec.setWidth_setWidth_of_le x hle]; rfl
  | signed =>
    obtain rfl := ha.bits
    rw [Width.cut_eq hw, Width.spread, ha.back]
    refine congrArg (BitVec.setWidth 64) (BitVec.eq_of_getLsbD_eq fun i hi => ?_)
    have hi64 : i < 64 := lt_of_lt_of_le hi hle
    simp only [Sign.widen, BitVec.getLsbD_setWidth, BitVec.getLsbD_signExtend, hi, hi64,
      decide_true, Bool.true_and]

theorem compare {op : CmpOp} (ha : a.Yields m n x) (hb : b.Yields m n y) (hw : w.bits = k) :
    (Expr.compare op w a b).Decides m n (op.apply w (x.setWidth 64) (y.setWidth 64)) := by
  have hcut (z : BitVec k) : w.cut (z.setWidth 64) = z.setWidth 64 := by
    rw [Width.cut_eq hw, BitVec.setWidth_setWidth_of_le z ha.le, BitVec.setWidth_eq]
  refine ⟨rfl, fun m' hm => ?_⟩
  rw [Expr.eval_compare (ha.eval m' hm) (hb.eval m' hm), hcut, hcut]
  cases op.apply w (x.setWidth 64) (y.setWidth 64) <;> rfl

theorem signed_eq (ha : a.Yields m n x) (hw : w.bits = k) :
    w.signed (x.setWidth 64) = x.toInt := by
  subst hw
  rw [Width.signed, ha.back]

theorem slt (ha : a.Yields m n x) (hb : b.Yields m n y) (hw : w.bits = k) :
    (Expr.compare .slt w a b).Decides m n (decide (x.toInt < y.toInt)) := by
  have h : (Expr.compare .slt w a b).Decides m n
      (decide (w.signed (x.setWidth 64) < w.signed (y.setWidth 64))) := ha.compare hb hw
  rwa [ha.signed_eq hw, hb.signed_eq hw] at h

theorem sgt (ha : a.Yields m n x) (hb : b.Yields m n y) (hw : w.bits = k) :
    (Expr.compare .sgt w a b).Decides m n (decide (y.toInt < x.toInt)) := by
  have h : (Expr.compare .sgt w a b).Decides m n
      (decide (w.signed (y.setWidth 64) < w.signed (x.setWidth 64))) := ha.compare hb hw
  rwa [ha.signed_eq hw, hb.signed_eq hw] at h

theorem sge (ha : a.Yields m n x) (hb : b.Yields m n y) (hw : w.bits = k) :
    (Expr.compare .sge w a b).Decides m n (decide (y.toInt ≤ x.toInt)) := by
  have h : (Expr.compare .sge w a b).Decides m n
      (decide (w.signed (y.setWidth 64) ≤ w.signed (x.setWidth 64))) := ha.compare hb hw
  rwa [ha.signed_eq hw, hb.signed_eq hw] at h

theorem ugt (ha : a.Yields m n x) (hb : b.Yields m n y) (hw : w.bits = k) :
    (Expr.compare .ugt w a b).Decides m n (decide (y.toNat < x.toNat)) := by
  have h : (Expr.compare .ugt w a b).Decides m n (decide (y.setWidth 64 < x.setWidth 64)) :=
    ha.compare hb hw
  simpa only [BitVec.lt_def, BitVec.toNat_setWidth_of_le ha.le] using h

theorem ult (ha : a.Yields m n x) (hb : b.Yields m n y) (hw : w.bits = k) :
    (Expr.compare .ult w a b).Decides m n (decide (x.toNat < y.toNat)) := by
  have h : (Expr.compare .ult w a b).Decides m n (decide (x.setWidth 64 < y.setWidth 64)) :=
    ha.compare hb hw
  simpa only [BitVec.lt_def, BitVec.toNat_setWidth_of_le ha.le] using h

/-- Values are equal if their containers are. -/
theorem setWidth_inj (ha : a.Yields m n x) (hb : b.Yields m n y) :
    x.setWidth 64 = y.setWidth 64 ↔ x = y :=
  ⟨fun heq => by rw [← ha.back, heq, hb.back], congrArg _⟩

theorem eq (ha : a.Yields m n x) (hb : b.Yields m n y) (hw : w.bits = k) :
    (Expr.compare .eq w a b).Decides m n (decide (x = y)) := by
  have h : (Expr.compare .eq w a b).Decides m n (x.setWidth 64 == y.setWidth 64) :=
    ha.compare hb hw
  have hvalue : (x.setWidth 64 == y.setWidth 64) = decide (x = y) := by
    rw [Bool.eq_iff_iff, beq_iff_eq, decide_eq_true_iff, ha.setWidth_inj hb]
  rwa [hvalue] at h

theorem ne (ha : a.Yields m n x) (hb : b.Yields m n y) (hw : w.bits = k) :
    (Expr.compare .ne w a b).Decides m n (decide (x ≠ y)) := by
  have h : (Expr.compare .ne w a b).Decides m n (x.setWidth 64 != y.setWidth 64) :=
    ha.compare hb hw
  have hvalue : (x.setWidth 64 != y.setWidth 64) = decide (x ≠ y) := by
    rw [Bool.eq_iff_iff, bne_iff_ne, decide_eq_true_iff, Ne, ha.setWidth_inj hb]
  rwa [hvalue] at h

end Yields

/-- The low byte of a truth value that is kept in a word. -/
theorem Yields.truth {t : Bool} (h : a.Yields m n ((BitVec.ofBool t).setWidth 32)) :
    (Expr.low .byte a).Decides m n t := by
  have hlow : (Expr.low .byte a).Yields m n (((BitVec.ofBool t).setWidth 32).setWidth 8) :=
    h.low rfl (by decide)
  cases t <;> exact hlow

namespace Decides

variable {t u : Bool}

theorem tells (h : a.Decides m n t) (hm : m.Grows n m₁) : a.Tells m₁ t :=
  ⟨_, h.eval m₁ hm, by cases t <;> rfl⟩

theorem and (ha : a.Decides m n t) (hb : b.Decides m n u) :
    (Expr.and .byte a b).Decides m n (t && u) := by
  have h := Yields.and ha hb (w := .byte) rfl
  cases t <;> cases u <;> exact h

theorem or (ha : a.Decides m n t) (hb : b.Decides m n u) :
    (Expr.or .byte a b).Decides m n (t || u) := by
  have h := Yields.or ha hb (w := .byte) rfl
  cases t <;> cases u <;> exact h

end Decides

end Expr

/-! ## Statements -/

namespace Machine

variable {β : Type} [Bus β] {pc : Address} {m m₁ m₂ : Machine β} {stmts rest : List Stmt}

/-- Statements that complete one after the other. -/
inductive Executes (pc : Address) : List Stmt → Machine β → Machine β → Prop where
  | nil (m : Machine β) : Executes pc [] m m
  | cons {stmt : Stmt} {rest : List Stmt} {m m₁ m₂ : Machine β}
      (hstmt : stmt.exec pc m = (m₁, .next)) (hrest : Executes pc rest m₁ m₂) :
      Executes pc (stmt :: rest) m m₂

theorem Executes.append (h : Executes pc stmts m m₁) (h' : Executes pc rest m₁ m₂) :
    Executes pc (stmts ++ rest) m m₂ := by
  induction h with
  | nil => exact h'
  | cons hstmt _ ih => exact .cons hstmt (ih h')

theorem Executes.run (h : Executes pc stmts m m₁) (code : List Stmt) :
    m.run pc code stmts.length stmts = (m₁, .done) := by
  induction h with
  | nil => rfl
  | cons hstmt _ ih =>
    rw [List.length_cons, Machine.run, hstmt]
    exact ih

theorem Executes.run_trapped {stmt : Stmt} {t : Trap} (h : Executes pc stmts m m₁)
    (hstmt : stmt.exec pc m₁ = (m₂, .trap t)) (code rest : List Stmt) :
    m.run pc code (stmts ++ stmt :: rest).length (stmts ++ stmt :: rest) = (m₂, .trapped t) := by
  induction h with
  | nil => rw [List.nil_append, List.length_cons, Machine.run, hstmt]
  | cons hfirst _ ih =>
    rw [List.cons_append, List.length_cons, Machine.run, hfirst]
    exact ih hstmt

/-- Statements that complete up to one that traps. -/
inductive Traps (pc : Address) (t : Trap) : List Stmt → Machine β → Prop where
  | here {stmt : Stmt} {rest : List Stmt} {m m₁ : Machine β}
      (hstmt : stmt.exec pc m = (m₁, .trap t)) : Traps pc t (stmt :: rest) m
  | later {stmt : Stmt} {rest : List Stmt} {m m₁ : Machine β}
      (hstmt : stmt.exec pc m = (m₁, .next)) (hrest : Traps pc t rest m₁) :
      Traps pc t (stmt :: rest) m

variable {t : Trap}

theorem Traps.append (h : Traps pc t stmts m) (rest : List Stmt) :
    Traps pc t (stmts ++ rest) m := by
  induction h with
  | here hstmt => exact .here hstmt
  | later hstmt _ ih => exact .later hstmt ih

theorem Executes.traps (h : Executes pc stmts m m₁) (h' : Traps pc t rest m₁) :
    Traps pc t (stmts ++ rest) m := by
  induction h with
  | nil => exact h'
  | cons hstmt _ ih => exact .later hstmt (ih h')

theorem Traps.run (h : Traps pc t stmts m) (code : List Stmt) :
    (m.run pc code stmts.length stmts).2 = .trapped t := by
  induction h with
  | here hstmt => rw [List.length_cons, Machine.run, hstmt]
  | later hstmt _ ih =>
    rw [List.length_cons, Machine.run, hstmt]
    exact ih

end Machine

namespace Lift.Emit

variable {α γ β : Type} [Bus β] {pc : Address} {s : Supply} {m : Machine β} {k : Nat}

/-- The statements that are emitted complete, and lead to where `Q` holds. -/
def Runs (pc : Address) (e : Emit α) (s : Supply) (m : Machine β)
    (Q : α → Supply → Machine β → Prop) : Prop :=
  ∃ m', Machine.Executes pc (e s).2.1 m m' ∧ Q (e s).1 (e s).2.2 m'

namespace Runs

theorem bind {e : Emit α} {f : α → Emit γ} {Q : γ → Supply → Machine β → Prop}
    (h : e.Runs pc s m fun a s' m' => (f a).Runs pc s' m' Q) : (e >>= f).Runs pc s m Q := by
  obtain ⟨m₁, he, m₂, hf, hQ⟩ := h
  exact ⟨m₂, he.append hf, hQ⟩

theorem mono {e : Emit α} {Q Q' : α → Supply → Machine β → Prop} (h : e.Runs pc s m Q)
    (hQ : ∀ a s' m', Q a s' m' → Q' a s' m') : e.Runs pc s m Q' := by
  obtain ⟨m', he, hm'⟩ := h
  exact ⟨m', he, hQ _ _ m' hm'⟩

theorem pure {a : α} {Q : α → Supply → Machine β → Prop} (h : Q a s m) :
    (Pure.pure a : Emit α).Runs pc s m Q :=
  ⟨m, .nil m, h⟩

/-- A statement that completes. -/
theorem emit {stmt : Stmt} {m' : Machine β} {Q : Unit → Supply → Machine β → Prop}
    (hstmt : stmt.exec pc m = (m', .next)) (hQ : Q () s m') : (Lift.emit stmt).Runs pc s m Q :=
  ⟨m', .cons hstmt (.nil m'), hQ⟩

theorem set {r : Register} {x : Expr} {v : BitVec k} {Q : Unit → Supply → Machine β → Prop}
    (hx : x.Yields m s.temps v) (hQ : Q () s (m.withCore (·.write r (v.setWidth 64)))) :
    (Lift.set r x).Runs pc s m Q := by
  refine emit ?_ hQ
  simp only [Stmt.exec, hx.eval m (.refl m _)]

theorem setFlag_now {f : Flag} {x : Expr} {t : Bool} {Q : Unit → Supply → Machine β → Prop}
    (hx : x.Tells m t) (hQ : Q () s (m.withCore (·.setFlag f t))) :
    (Lift.setFlag f x).Runs pc s m Q := by
  obtain ⟨v, hv, hbit⟩ := hx
  refine emit ?_ hQ
  simp only [Stmt.exec, hv, hbit]

theorem setFlag {f : Flag} {x : Expr} {t : Bool} {Q : Unit → Supply → Machine β → Prop}
    (hx : x.Decides m s.temps t) (hQ : Q () s (m.withCore (·.setFlag f t))) :
    (Lift.setFlag f x).Runs pc s m Q :=
  setFlag_now (hx.tells (.refl m _)) hQ

theorem sticky {f source : Flag} {Q : Unit → Supply → Machine β → Prop}
    (hQ : Q () s (m.withCore (·.setFlag f (m.core.flag f || m.core.flag source)))) :
    (Lift.sticky f source).Runs pc s m Q :=
  setFlag_now (Expr.eval_or_flag m f source) hQ

/-- A word or a 64-bit value is kept as it is. That it has the value now is enough. -/
theorem temp_kept {x : Expr} {v : BitVec k} {Q : Expr → Supply → Machine β → Prop}
    (hbits : x.width.bits = k) (hx : x.eval m = .ok (v.setWidth 64)) (hk : 32 ≤ k)
    (hQ : ∀ m' e, m.Grows s.temps m' → m'.core.psw = m.core.psw →
      e.Keeps m' (s.temps + 1) v → Q e { s with temps := s.temps + 1 } m') :
    (Lift.temp x).Runs pc s m Q := by
  obtain ⟨r, hfor, hr, hwidth, hread⟩ : ∃ r, tempFor s.temps x = (r, x) ∧
      (r = .temp s.temps ∨ r = .tempWide s.temps) ∧ r.width.bits = k ∧
        ∀ c : Core, (c.write r (v.setWidth 64)).read r = v.setWidth 64 := by
    cases hw : x.width <;> rw [hw] at hbits <;> subst hbits
    case byte | half => exact absurd hk (by decide)
    case word =>
      refine ⟨.temp s.temps, by rw [tempFor, hw], .inl rfl, rfl, fun c => ?_⟩
      have hback : ((v.setWidth 64).setWidth 32).setWidth 64 = v.setWidth 64 := by
        rw [BitVec.setWidth_setWidth_of_le v (by decide)]
        exact congrArg (BitVec.setWidth 64) (BitVec.setWidth_eq v)
      simp only [Core.write, Core.read, Register.canonical, hback, List.lookup_cons_self,
        Option.getD_some]
    case double =>
      refine ⟨.tempWide s.temps, by rw [tempFor, hw], .inr rfl, rfl, fun c => ?_⟩
      simp only [Core.write, Core.read, Register.canonical, List.lookup_cons_self, Option.getD_some]
  have hsettled : r.Settled (s.temps + 1) := by
    rcases hr with rfl | rfl <;> exact Nat.lt_succ_self _
  have hpsw (c : Core) (z : Value) : (c.write r z).psw = c.psw := by
    rcases hr with rfl | rfl <;> rfl
  refine ⟨m.withCore (·.write r (v.setWidth 64)), ?_, ?_⟩
  · simp only [Lift.temp, hfor]
    exact .cons (by simp only [Stmt.exec, hx]) (.nil _)
  · simp only [Lift.temp, hfor]
    refine hQ _ _ (.temp hr m _) (hpsw _ _) fun m' hm' => .reg hsettled hwidth ?_
    obtain ⟨hword, hwide⟩ := hm' s.temps (Nat.lt_succ_self _)
    rcases hr with rfl | rfl
    · exact hword.trans (hread _)
    · exact hwide.trans (hread _)

theorem temp_keeps {x : Expr} {v : BitVec k} {Q : Expr → Supply → Machine β → Prop}
    (hx : x.Yields m s.temps v) (hk : 32 ≤ k)
    (hQ : ∀ m' e, m.Extends s.temps m' (s.temps + 1) → e.Keeps m' (s.temps + 1) v →
      Q e { s with temps := s.temps + 1 } m') :
    (Lift.temp x).Runs pc s m Q :=
  temp_kept hx.bits (hx.eval m (.refl m _)) hk fun m' e hgrows hpsw he =>
    hQ m' e ⟨hgrows, Nat.le_succ _, hpsw⟩ he

theorem temp_now {x : Expr} {v : BitVec k} {Q : Expr → Supply → Machine β → Prop}
    (hbits : x.width.bits = k) (hx : x.eval m = .ok (v.setWidth 64)) (hk : 32 ≤ k)
    (hQ : ∀ m' e, m.Grows s.temps m' → m'.core.psw = m.core.psw →
      e.Yields m' (s.temps + 1) v → Q e { s with temps := s.temps + 1 } m') :
    (Lift.temp x).Runs pc s m Q :=
  temp_kept hbits hx hk fun m' e hgrows hpsw he => hQ m' e hgrows hpsw he.yields

theorem temp {x : Expr} {v : BitVec k} {Q : Expr → Supply → Machine β → Prop}
    (hx : x.Yields m s.temps v) (hk : 32 ≤ k)
    (hQ : ∀ m' e, m.Grows s.temps m' → m'.core.psw = m.core.psw →
      e.Yields m' (s.temps + 1) v → Q e { s with temps := s.temps + 1 } m') :
    (Lift.temp x).Runs pc s m Q :=
  temp_now hx.bits (hx.eval m (.refl m _)) hk hQ

/-- A truth value is kept in a word, -/
theorem temp_truthKeeps {x : Expr} {t : Bool} {Q : Expr → Supply → Machine β → Prop}
    (hx : x.Decides m s.temps t)
    (hQ : ∀ m' e, m.Extends s.temps m' (s.temps + 1) →
      e.Keeps m' (s.temps + 1) ((BitVec.ofBool t).setWidth 32) →
        Q e { s with temps := s.temps + 1 } m') :
    (Lift.temp x).Runs pc s m Q := by
  have hwidth : x.width = .byte := by
    have hbits := hx.bits
    cases hw : x.width with
    | byte => rfl
    | half | word | double => rw [hw] at hbits; cases hbits
  have hword : (Expr.zext .word x).Yields m s.temps ((BitVec.ofBool t).setWidth 32) := by
    have h : (Expr.zext .word x).Yields m s.temps (((BitVec.ofBool t).setWidth 8).setWidth 32) :=
      Expr.Yields.extend (s := .unsigned) hx rfl (by decide)
    cases t <;> exact h
  have heq : Lift.temp x = Lift.temp (.zext .word x) := by
    funext s
    simp only [Lift.temp, tempFor, hwidth]
    rfl
  rw [heq]
  exact temp_keeps hword (by decide) hQ

theorem temp_truthWord {x : Expr} {t : Bool} {Q : Expr → Supply → Machine β → Prop}
    (hx : x.Decides m s.temps t)
    (hQ : ∀ m' e, m.Grows s.temps m' → m'.core.psw = m.core.psw →
      e.Yields m' (s.temps + 1) ((BitVec.ofBool t).setWidth 32) →
        Q e { s with temps := s.temps + 1 } m') :
    (Lift.temp x).Runs pc s m Q :=
  temp_truthKeeps hx fun m' e hm he => hQ m' e hm.grows hm.psw he.yields

/-- of which the low byte is taken. -/
theorem temp_truth {x : Expr} {t : Bool} {Q : Expr → Supply → Machine β → Prop}
    (hx : x.Decides m s.temps t)
    (hQ : ∀ m' e, m.Grows s.temps m' → m'.core.psw = m.core.psw →
      (Expr.low .byte e).Decides m' (s.temps + 1) t → Q e { s with temps := s.temps + 1 } m') :
    (Lift.temp x).Runs pc s m Q :=
  temp_truthWord hx fun m' e hgrows hpsw he => hQ m' e hgrows hpsw he.truth

/-- Overflow and advanced overflow are reported; the sticky advanced flag and the carry stay. The
advanced flag is still as it was when its new value is taken. -/
theorem overflowStatus_now {v av : Expr} {t u : Bool} {Q : Unit → Supply → Machine β → Prop}
    (hv : v.Tells m t)
    (hav : ∀ m', m.Grows s.temps m' → m'.core.flag .av = m.core.flag .av → av.Tells m' u)
    (hQ : ∀ m', m.Grows s.temps m' → m.ReportsOverflow t u m' → m'.core.flag .c = m.core.flag .c →
      Q () s m') :
    (Lift.overflowStatus v av).Runs pc s m Q := by
  have hgrows : m.Grows s.temps m := .refl m _
  refine bind (setFlag_now hv (bind (sticky
    (setFlag_now (hav _ hgrows.setFlag.setFlag ?_) (hQ _ ?_ ?_ ?_)))))
  · simp (disch := decide) only [Machine.withCore, Core.flag_setFlag_of_ne]
  · exact hgrows.setFlag.setFlag.setFlag
  · constructor
    all_goals
      simp (disch := decide) only [Machine.withCore, Core.flag_setFlag, Core.flag_setFlag_of_ne]
  · simp (disch := decide) only [Machine.withCore, Core.flag_setFlag_of_ne]

theorem overflowStatus {v av : Expr} {t u : Bool} {Q : Unit → Supply → Machine β → Prop}
    (hv : v.Decides m s.temps t) (hav : av.Decides m s.temps u)
    (hQ : ∀ m', m.Grows s.temps m' → m.ReportsOverflow t u m' → m'.core.flag .c = m.core.flag .c →
      Q () s m') :
    (Lift.overflowStatus v av).Runs pc s m Q :=
  overflowStatus_now (hv.tells (.refl m _)) (fun _ hgrows _ => hav.tells hgrows) hQ

/-- A report leaves the carry alone. -/
theorem status_now {v av : Expr} {t u : Bool} {Q : Unit → Supply → Machine β → Prop}
    (hv : v.Tells m t)
    (hav : ∀ m', m.Grows s.temps m' → m'.core.flag .av = m.core.flag .av → av.Tells m' u)
    (hQ : ∀ m', m.Grows s.temps m' → m.Reports t u m' → m'.core.flag .c = m.core.flag .c →
      Q () s m') :
    (Lift.status v av).Runs pc s m Q := by
  refine bind (overflowStatus_now hv hav fun m₁ hgrows hm hc => ?_)
  refine sticky (hQ _ hgrows.setFlag ⟨?_, ?_, ?_, ?_⟩ ?_)
  · exact (Core.flag_setFlag_of_ne (by decide)).trans hm.v
  · exact (Core.flag_setFlag_of_ne (by decide)).trans hm.sv
  · exact (Core.flag_setFlag_of_ne (by decide)).trans hm.av
  · rw [Machine.withCore, Core.flag_setFlag, hm.sav, hm.av]
  · exact (Core.flag_setFlag_of_ne (by decide)).trans hc

theorem status_keeping {v av : Expr} {t u : Bool} {Q : Unit → Supply → Machine β → Prop}
    (hv : v.Decides m s.temps t) (hav : av.Decides m s.temps u)
    (hQ : ∀ m', m.Grows s.temps m' → m.Reports t u m' → m'.core.flag .c = m.core.flag .c →
      Q () s m') :
    (Lift.status v av).Runs pc s m Q :=
  status_now (hv.tells (.refl m _)) (fun _ hgrows _ => hav.tells hgrows) hQ

theorem status {v av : Expr} {t u : Bool} {Q : Unit → Supply → Machine β → Prop}
    (hv : v.Decides m s.temps t) (hav : av.Decides m s.temps u)
    (hQ : ∀ m', m.Grows s.temps m' → m.Reports t u m' → Q () s m') :
    (Lift.status v av).Runs pc s m Q :=
  status_keeping hv hav fun m' hgrows hm _ => hQ m' hgrows hm

end Runs

/-- The statements that are emitted complete up to one that traps. -/
def Traps (pc : Address) (e : Emit α) (s : Supply) (m : Machine β) (t : Trap) : Prop :=
  Machine.Traps pc t (e s).2.1 m

namespace Traps

variable {t : Trap}

theorem emit {stmt : Stmt} {m' : Machine β} (hstmt : stmt.exec pc m = (m', .trap t)) :
    (Lift.emit stmt).Traps pc s m t := .here hstmt

theorem bind {e : Emit α} {f : α → Emit γ} (h : e.Traps pc s m t) : (e >>= f).Traps pc s m t :=
  Machine.Traps.append h _

end Traps

theorem Runs.bind_traps {t : Trap} {e : Emit α} {f : α → Emit γ}
    (h : e.Runs pc s m fun a s' m' => (f a).Traps pc s' m' t) : (e >>= f).Traps pc s m t := by
  obtain ⟨m₁, he, hf⟩ := h
  exact he.traps hf

end Lift.Emit

/-! ## Steps -/

namespace Machine

variable {β : Type} [Bus β] {isa : Isa} {m : Machine β} {i : Instruction} {e : Lift.Emit Unit}

/-- A step completes and leads where the emission of the instruction at the program counter does. -/
theorem step_of_runs (hi : m.instruction? isa = some i) (hp : i.plan = Lift.emitting e)
    {Q : Machine β → Prop}
    (he : ∀ s : Lift.Supply, s.temps = 0 → e.Runs i.addr s (m.start i) fun _ _ m' => Q m') :
    (m.step isa).2 = .done ∧ Q (m.step isa).1 := by
  obtain ⟨bytes, hf, hd⟩ := instruction?_eq_some.1 hi
  obtain ⟨m', hrun, hQ⟩ := he { temps := 0, labels := 0, labelAt? := fun _ => none } rfl
  have hstep : m.step isa = (m', .done) := (step_of_plan hf hd hp).trans (hrun.run _)
  rw [hstep]
  exact ⟨rfl, hQ⟩

theorem step_of_traps (hi : m.instruction? isa = some i) (hp : i.plan = Lift.emitting e) {t : Trap}
    (he : ∀ s : Lift.Supply, s.temps = 0 → e.Traps i.addr s (m.start i) t) :
    (m.step isa).2 = .trapped t := by
  obtain ⟨bytes, hf, hd⟩ := instruction?_eq_some.1 hi
  rw [step_of_plan hf hd hp]
  exact Traps.run (he { temps := 0, labels := 0, labelAt? := fun _ => none } rfl) _

end Machine

namespace Operand

/-- The low word of an operand. -/
def word (c : Core) (o : Operand) : Word := (o.value c).setWidth 32

theorem word_of_read {c : Core} {n : Nat} {r : Word} (h : c.read (.d n) = r.setWidth 64) :
    word c (.reg (.d n)) = r := by
  rw [word, value, h]
  exact BitVec.setWidth_setWidth_of_le r (by decide)

/-- A register or a constant of one word. -/
def IsSingle (o : Operand) : Prop := o.shape ∈ [Shape.data, .address, .imm, .high]

/-- A data register or a constant. -/
def IsWord (o : Operand) : Prop := o.shape = .data ∨ o.shape = .imm

variable {β : Type} [Bus β] {o : Operand}

theorem IsSingle.takes (h : o.IsSingle) : Role.value.takes o.shape = true := by
  have hall : ∀ shape ∈ [Shape.data, .address, .imm, .high], Role.value.takes shape = true := by
    decide
  exact hall _ h

theorem IsSingle.yields (ho : o.IsSingle) (m : Machine β) (i : Instruction) (n : Nat) :
    o.expr.Yields (m.start i) n (o.word m.core) := by
  cases o with
  | reg r =>
    cases r with
    | d k | a k =>
      refine .reg trivial rfl ?_
      simp [word, value, Core.read, Register.canonical, Machine.start, Machine.withCore]
    | _ => simp [IsSingle, shape, Register.shape] at ho
  | imm v =>
    show (Expr.word (.ofInt 32 v)).Yields (m.start i) n
      (((BitVec.ofInt 32 v).setWidth 64).setWidth 32)
    exact .const _ rfl
  | high h =>
    show (Expr.word (h ++ (0 : BitVec 16))).Yields (m.start i) n
      (((h ++ (0 : BitVec 16)).setWidth 64).setWidth 32)
    exact .const _ rfl
  | _ => simp [IsSingle, shape] at ho

theorem IsWord.isSingle (h : o.IsWord) : o.IsSingle := by
  rcases h with h | h <;> rw [IsSingle, h] <;> decide

theorem IsWord.takes (h : o.IsWord) : Role.value.takes o.shape = true := h.isSingle.takes

theorem IsWord.yields (ho : o.IsWord) (m : Machine β) (i : Instruction) (n : Nat) :
    o.expr.Yields (m.start i) n (o.word m.core) := ho.isSingle.yields m i n

end Operand

/-- Values are what effects are planned from, none of them a selector. -/
theorem Instruction.operands_of_values {i : Instruction}
    (h : ∀ o ∈ i.operands, Role.value.takes o.shape = true) :
    (Lift.Source.of i).operands = i.operands :=
  operands_of_unselected fun o ho hs => by
    have htakes := h o ho
    rw [hs] at htakes
    cases htakes

end Tricore
