import Mathlib
import Tricore.Proofs.Products

/-!
# Exact results

What an instruction does is said about an integer, its exact result: the status word tells if the
integer fits the destination and if its two top bits differ (`Width.advances`), and the destination
has the low bits of the integer or the nearest one that fits (`Sign.stored`). `Machine.Delivers`
says this of one or more exact results. To get there from 64-bit patterns, `Expr.Carries` says which
integer a 64-bit expression stands for; sums, differences, products and shifts carry what they
should also where the pattern wraps around.

A word-sized result is the low part of a pattern that never wraps. A 64-bit accumulator may wrap:
that it did is read off the signs (`runs_setAccumulated`) or by a comparison
(`runs_setAccumulatedU`).
-/

namespace Tricore

/-! ## Integers and widths -/

namespace Sign

variable {w : Width} {z : Int}

theorem fits_signed : signed.Fits w z ↔ -2 ^ (w.bits - 1) ≤ z ∧ z < 2 ^ (w.bits - 1) := by
  rw [Fits, limits_signed, Int.le_sub_one_iff]

theorem fits_unsigned : unsigned.Fits w z ↔ 0 ≤ z ∧ z < 2 ^ w.bits := by
  rw [Fits, limits_unsigned, Int.le_sub_one_iff]

theorem widen_eq_ofInt (s : Sign) (j : Nat) {k : Nat} (x : BitVec k) :
    s.widen j x = BitVec.ofInt j (s.number x) := by
  cases s with
  | signed => rfl
  | unsigned => rw [widen, number, BitVec.ofInt_natCast, BitVec.ofNat_toNat]

theorem widen_self (s : Sign) (v : Value) : s.widen 64 v = v := by
  cases s with
  | signed => exact BitVec.signExtend_eq v
  | unsigned => exact BitVec.setWidth_eq v

theorem fits_number (s : Sign) (v : Value) : s.Fits .double (s.number v) := by
  cases s with
  | signed => exact fits_signed.2 ⟨BitVec.le_toInt v, BitVec.toInt_lt⟩
  | unsigned =>
    have hlt : (v.toNat : Int) < 2 ^ 64 := by exact_mod_cast v.isLt
    exact fits_unsigned.2 ⟨Int.natCast_nonneg _, hlt⟩

theorem clamp_of_fits {s : Sign} (h : s.Fits w z) : s.clamp w z = z := by
  rw [clamp, min_eq_left h.2, max_eq_right h.1]

/-- What is left of an integer at a width: the nearest one that fits, or its low bits. -/
def stored (s : Sign) (w : Width) (sat : Bool) (z : Int) : BitVec w.bits :=
  .ofInt w.bits (if sat then s.clamp w z else z)

end Sign

/-- Do the two top bits of an integer differ, at this width? -/
def Width.advances (w : Width) (z : Int) : Bool :=
  let x := BitVec.ofInt w.bits z
  x.getLsbD (w.bits - 1) ^^ x.getLsbD (w.bits - 2)

/-- A number that fits a width is the number of its low bits. -/
theorem Sign.number_ofInt {s : Sign} {w : Width} {z : Int} (hz : s.Fits w z) :
    s.number (BitVec.ofInt w.bits z) = z := by
  cases s with
  | signed =>
    obtain ⟨hlo, hhi⟩ := fits_signed.1 hz
    exact BitVec.toInt_ofInt_eq_self (by cases w <;> decide) hlo hhi
  | unsigned =>
    obtain ⟨hlo, hhi⟩ := fits_unsigned.1 hz
    rw [number, BitVec.toNat_ofInt, Int.toNat_of_nonneg (Int.emod_nonneg _ (by positivity))]
    push_cast
    exact Int.emod_eq_of_lt hlo hhi

theorem toInt_ofInt_of_fits {z : Int} (hz : Sign.signed.Fits .double z) :
    (BitVec.ofInt 64 z).toInt = z := Sign.number_ofInt hz

theorem toNat_ofInt_of_fits {z : Int} (hz : Sign.unsigned.Fits .double z) :
    ((BitVec.ofInt 64 z).toNat : Int) = z := Sign.number_ofInt hz

theorem ofInt_sub (k : Nat) (y z : Int) :
    BitVec.ofInt k (y - z) = BitVec.ofInt k y - BitVec.ofInt k z := by
  rw [Int.sub_eq_add_neg, BitVec.ofInt_add, BitVec.ofInt_neg, BitVec.sub_eq_add_neg]

theorem ofInt_two_pow (j k : Nat) : BitVec.ofInt j (2 ^ k) = BitVec.twoPow j k := by
  refine BitVec.eq_of_toNat_eq ?_
  rw [show (2 ^ k : Int) = (2 ^ k : Nat) by push_cast; rfl, BitVec.ofInt_natCast,
    BitVec.toNat_ofNat, BitVec.toNat_twoPow]

/-- An accumulator with a product added or subtracted, or the product alone. -/
def Accumulate.sum (op : Accumulate) (acc product : Int) : Int :=
  match op with
  | none => product
  | add => acc + product
  | sub => acc - product

theorem abs_toInt_le {k : Nat} (x : BitVec k) : |x.toInt| ≤ 2 ^ (k - 1) :=
  abs_le.2 ⟨BitVec.le_toInt x, BitVec.toInt_lt.le⟩

theorem fits_of_abs_lt {z : Int} (h : |z| < 2 ^ 63) : Sign.signed.Fits .double z := by
  rw [abs_lt] at h
  exact Sign.fits_signed.2 ⟨h.1.le, h.2⟩

theorem Accumulate.abs_sum_le (op : Accumulate) {y z a b : Int} (hy : |y| ≤ a) (hz : |z| ≤ b) :
    |op.sum y z| ≤ a + b := by
  rw [abs_le] at hy hz ⊢
  cases op <;> simp only [sum] <;> omega

namespace Expr

variable {β : Type} [Bus β] {m m₁ : Machine β} {n n₁ k : Nat} {a b c : Expr} {y z : Int} {t : Bool}

/-- The 64-bit expression stands for the integer, as far as 64 bits can tell. -/
def Carries (m : Machine β) (n : Nat) (e : Expr) (z : Int) : Prop :=
  e.Yields m n (BitVec.ofInt 64 z)

namespace Carries

theorem of_yields {v : Value} (s : Sign) (ha : a.Yields m n v) : a.Carries m n (s.number v) := by
  rwa [Carries, ← Sign.widen_eq_ofInt, Sign.widen_self]

theorem extend {x : BitVec k} (s : Sign) (ha : a.Yields m n x) :
    (Expr.extend s .double a).Carries m n (s.number x) := by
  rw [Carries, ← Sign.widen_eq_ofInt]
  exact ha.extend rfl ha.le

theorem const {v : Value} (hv : v = BitVec.ofInt 64 z) : (Expr.const .double v).Carries m n z :=
  hv ▸ .const_double v

theorem add (ha : a.Carries m n y) (hb : b.Carries m n z) :
    (Expr.add .double a b).Carries m n (y + z) := by
  have h := Yields.add ha hb (w := .double) rfl
  rwa [← BitVec.ofInt_add] at h

theorem sub (ha : a.Carries m n y) (hb : b.Carries m n z) :
    (Expr.sub .double a b).Carries m n (y - z) := by
  have h := Yields.sub ha hb (w := .double) rfl
  rwa [← ofInt_sub] at h

theorem mul (ha : a.Carries m n y) (hb : b.Carries m n z) :
    (Expr.mul .double a b).Carries m n (y * z) := by
  have h := Yields.mul ha hb (w := .double) rfl
  rwa [← BitVec.ofInt_mul] at h

theorem shl {v : Value} (ha : a.Carries m n z) (hv : v.toNat < 64) :
    (Expr.shl .double a (.const .double v)).Carries m n (z * 2 ^ v.toNat) := by
  have h := Yields.shl_const ha (w := .double) rfl hv
  rwa [BitVec.shiftLeft_eq_mul_twoPow, ← ofInt_two_pow, ← BitVec.ofInt_mul] at h

theorem select (hc : c.Decides m n t) (ha : a.Carries m n y) (hb : b.Carries m n z) :
    (Expr.select .double c a b).Carries m n (if t then y else z) := by
  have h := Yields.select hc ha hb (w := .double) rfl
  cases t <;> exact h

theorem accumulated {op : Accumulate} (ha : a.Carries m n y) (hb : b.Carries m n z) :
    (Lift.accumulated op a b).Carries m n (op.sum y z) := by
  cases op with
  | none => exact hb
  | add => exact ha.add hb
  | sub => exact ha.sub hb

/-! What is kept of the integer at a narrower width, and what is reported on it. -/

section Narrow

variable {w : Width} {s : Sign} {sat : Bool}

theorem narrow_low (ha : a.Carries m n z) : (Expr.low w a).Yields m n (BitVec.ofInt w.bits z) := by
  have h : (Expr.low w a).Yields m n ((BitVec.ofInt 64 z).setWidth w.bits) :=
    ha.low rfl (Width.bits_le w)
  rwa [setWidth_ofInt (Width.bits_le w)] at h

theorem narrow_advanced (ha : a.Carries m n z) :
    (Expr.low w a).advanced.Decides m n (w.advances z) :=
  ha.narrow_low.advanced (by cases w <;> decide)

variable (hw : w ≠ .double)
include hw

theorem narrow_overflow (ha : a.Carries m n z) (hz : Sign.signed.Fits .double z) :
    (a.overflow w s).Decides m n (!decide (s.Fits w z)) := by
  have h := Yields.overflow (s := s) hw ha
  rwa [toInt_ofInt_of_fits hz, decide_not] at h

theorem narrow_saturate (ha : a.Carries m n z) (hz : Sign.signed.Fits .double z) :
    (a.saturate w s).Yields m n (BitVec.ofInt w.bits (s.clamp w z)) := by
  have h := Yields.saturate (s := s) hw ha
  rwa [toInt_ofInt_of_fits hz] at h

theorem narrow_stored (ha : a.Carries m n z) (hz : Sign.signed.Fits .double z) :
    (if sat then a.saturate w s else .low w a).Yields m n (s.stored w sat z) := by
  cases sat with
  | true => exact ha.narrow_saturate hw hz
  | false => exact ha.narrow_low

end Narrow

theorem low_word (ha : a.Carries m n z) : (Expr.low .word a).Yields m n (BitVec.ofInt 32 z) :=
  ha.narrow_low

/-- The advanced overflow of all 64 bits, -/
theorem advanced (ha : a.Carries m n z) : a.advanced.Decides m n (Width.double.advances z) :=
  Yields.advanced ha (by decide)

/-- and of the low word. -/
theorem advanced_low (ha : a.Carries m n z) :
    (Expr.low .word a).advanced.Decides m n (Width.word.advances z) := ha.narrow_advanced

theorem overflow {s : Sign} (ha : a.Carries m n z) (hz : Sign.signed.Fits .double z) :
    (a.overflow .word s).Decides m n (!decide (s.Fits .word z)) := ha.narrow_overflow (by decide) hz

theorem saturate_word {s : Sign} (ha : a.Carries m n z) (hz : Sign.signed.Fits .double z) :
    (a.saturate .word s).Yields m n (BitVec.ofInt 32 (s.clamp .word z)) :=
  ha.narrow_saturate (by decide) hz

theorem stored {s : Sign} {sat : Bool} (ha : a.Carries m n z) (hz : Sign.signed.Fits .double z) :
    (if sat then a.saturate .word s else .low .word a).Yields m n (s.stored .word sat z) :=
  ha.narrow_stored (by decide) hz

end Carries

end Expr

/-! ## Delivery -/

theorem append_halves (v : Value) : (v >>> 32).setWidth 32 ++ v.setWidth 32 = v := by
  refine BitVec.eq_of_getLsbD_eq fun i hi => ?_
  rw [BitVec.getLsbD_append]
  split_ifs with h
  · simp [h]
  · simp [show i - 32 < 32 by omega, show 32 + (i - 32) = i by omega]

theorem Core.read_write_e (c : Core) (n : Nat) (v : Value) :
    (c.write (.e n) v).read (.e n) = v := by
  have hne : (n + 1) % 16 ≠ n % 16 := by omega
  simpa [read, write, setD, Register.canonical, Vector.get_eq_getElem, hne] using append_halves v

/-- A data register takes words, a pair of them 64-bit values. -/
inductive Register.Takes : Register → Nat → Prop where
  | word (n : Nat) : Takes (.d n) 32
  | double (n : Nat) : Takes (.e n) 64

namespace Register.Takes

variable {r : Register} {k : Nat}

theorem read_write (h : r.Takes k) (c : Core) (v : BitVec k) :
    (c.write r (v.setWidth 64)).read r = v.setWidth 64 := by
  cases h with
  | word n => rw [Core.read_write_d]; simp
  | double n => exact Core.read_write_e c n _

theorem psw_write (h : r.Takes k) (c : Core) (v : Value) : (c.write r v).psw = c.psw := by
  cases h <;> rfl

end Register.Takes

/-- What an instruction leaves behind: a report on exact results that were to fit a width, and the
value at its destination. -/
structure Machine.Delivers {β : Type} (m : Machine β) (s : Sign) (w : Width) (exacts : List Int)
    (dst : Register) {k : Nat} (result : BitVec k) (m' : Machine β) : Prop where
  reports : m.Reports (exacts.any fun z => !decide (s.Fits w z)) (exacts.any w.advances) m'
  result : m'.core.read dst = result.setWidth 64

/-- A word-sized result is the low part of a 64-bit pattern. -/
theorem Machine.Concludes.delivers {β : Type} {m m' : Machine β} {sign : Sign} {sat : Bool}
    {dst : Nat} {z : Int} (hz : Sign.signed.Fits .double z)
    (h : m.Concludes (decide (¬ sign.Fits .word (BitVec.ofInt 64 z).toInt))
      ((BitVec.ofInt 64 z).setWidth 32) dst (Lift.narrowed sign sat (BitVec.ofInt 64 z)) m') :
    m.Delivers sign .word [z] (.d dst) (sign.stored .word sat z) m' := by
  obtain ⟨hreports, hresult⟩ := h
  rw [toInt_ofInt_of_fits hz, setWidth_ofInt (by decide)] at hreports
  rw [Lift.narrowed, toInt_ofInt_of_fits hz, setWidth_ofInt (by decide)] at hresult
  refine ⟨?_, ?_⟩
  · simp only [List.any_cons, List.any_nil, Bool.or_false, ← decide_not]
    exact hreports
  · rw [hresult, Sign.stored]
    cases sat <;> rfl

namespace Lift

variable {β : Type} [Bus β] {pc : Address} {s : Supply} {m m₁ : Machine β} {sign : Sign}
  {sat : Bool} {dst : Register} {k : Nat} {acc product : Expr} {y z : Int}

/-- Report and write the destination. The carry stays. -/
theorem runs_report {v av x : Expr} {t u : Bool} {r : BitVec k} (hv : v.Decides m s.temps t)
    (hav : av.Decides m s.temps u) (hx : x.Yields m s.temps r) (hdst : dst.Takes k)
    (hsv : m.core.flag .sv = m₁.core.flag .sv) (hsav : m.core.flag .sav = m₁.core.flag .sav) :
    (do status v av; set dst x : Emit Unit).Runs pc s m fun _ _ m' =>
      m₁.Reports t u m' ∧ m'.core.read dst = r.setWidth 64 ∧
        m'.core.flag .c = m.core.flag .c := by
  refine .bind (.status_keeping hv hav fun m' hgrows hm hc => ?_)
  have hkept (f : Flag) :
      (m'.withCore (·.write dst (r.setWidth 64))).core.flag f = m'.core.flag f := by
    rw [Core.flag, Core.flag, Machine.withCore, hdst.psw_write]
  refine .set (hx.mono hgrows le_rfl) ⟨?_, hdst.read_write _ r, (hkept _).trans hc⟩
  exact ⟨(hkept _).trans hm.v, (hkept _).trans (hsv ▸ hm.sv), (hkept _).trans hm.av,
    (hkept _).trans (hsav ▸ hm.sav)⟩

/-- Report on exact results and write the destination. -/
theorem runs_deliver {v av x : Expr} {w : Width} {exacts : List Int} {r : BitVec k}
    (hv : v.Decides m s.temps (exacts.any fun z => !decide (sign.Fits w z)))
    (hav : av.Decides m s.temps (exacts.any w.advances)) (hx : x.Yields m s.temps r)
    (hdst : dst.Takes k) (hpsw : m.core.psw = m₁.core.psw) :
    (do status v av; set dst x : Emit Unit).Runs pc s m fun _ _ m' =>
      m₁.Delivers sign w exacts dst r m' := by
  have hflag (f : Flag) : m.core.flag f = m₁.core.flag f := by rw [Core.flag, Core.flag, hpsw]
  refine (runs_report hv hav hx hdst (hflag .sv) (hflag .sav)).mono fun _ _ m' h => ?_
  exact ⟨h.1, h.2.1⟩

theorem runs_setProduct (hproduct : product.Carries m s.temps z) (hz : sign.Fits .double z)
    (hdst : dst.Takes 64) (hpsw : m.core.psw = m₁.core.psw) :
    (setProduct dst product).Runs pc s m fun _ _ m' =>
      m₁.Delivers sign .double [z] dst (sign.stored .double sat z) m' := by
  have hstored : sign.stored .double sat z = BitVec.ofInt 64 z := by
    rw [Sign.stored, Sign.clamp_of_fits hz, ite_self]
    rfl
  rw [hstored]
  refine runs_deliver ?_ ?_ hproduct hdst hpsw
  · simp only [List.any_cons, List.any_nil, hz, decide_true]
    exact .const 0 rfl
  · simpa only [List.any_cons, List.any_nil, Bool.or_false] using hproduct.advanced

/-! ## 64-bit accumulators -/

theorem saddOverflow_ofInt (hy : Sign.signed.Fits .double y) (hz : Sign.signed.Fits .double z) :
    (BitVec.ofInt 64 y).saddOverflow (BitVec.ofInt 64 z) =
      !decide (Sign.signed.Fits .double (y + z)) := by
  rw [BitVec.saddOverflow, toInt_ofInt_of_fits hy, toInt_ofInt_of_fits hz, Bool.eq_iff_iff]
  simp only [Bool.or_eq_true, decide_eq_true_eq, Bool.not_eq_true', decide_eq_false_iff_not,
    Sign.fits_signed, Width.bits, Width.bytes]
  omega

theorem ssubOverflow_ofInt (hy : Sign.signed.Fits .double y) (hz : Sign.signed.Fits .double z) :
    (BitVec.ofInt 64 y).ssubOverflow (BitVec.ofInt 64 z) =
      !decide (Sign.signed.Fits .double (y - z)) := by
  rw [BitVec.ssubOverflow, toInt_ofInt_of_fits hy, toInt_ofInt_of_fits hz, Bool.eq_iff_iff]
  simp only [Bool.or_eq_true, decide_eq_true_eq, Bool.not_eq_true', decide_eq_false_iff_not,
    Sign.fits_signed, Width.bits, Width.bytes]
  omega

theorem getLsbD_signs_add (x y : Value) :
    (~~~(x ^^^ y) &&& (x ^^^ (x + y))).getLsbD 63 = x.saddOverflow y := by
  simp only [BitVec.saddOverflow_eq, BitVec.msb_eq_getLsbD_last, BitVec.getLsbD_and,
    BitVec.getLsbD_not, BitVec.getLsbD_xor, Nat.reduceSub, Nat.reduceLT, decide_true, Bool.true_and]
  cases x.getLsbD 63 <;> cases y.getLsbD 63 <;> simp

theorem getLsbD_signs_sub (x y : Value) :
    ((x ^^^ y) &&& (x ^^^ (x - y))).getLsbD 63 = x.ssubOverflow y := by
  simp only [BitVec.ssubOverflow_eq, BitVec.msb_eq_getLsbD_last, BitVec.getLsbD_and,
    BitVec.getLsbD_xor, Nat.reduceSub]
  cases x.getLsbD 63 <;> cases y.getLsbD 63 <;> simp

/-- Overflow by signs: the result is on the other side of zero than the accumulator, where adding or
subtracting leads away from zero. -/
theorem decides_signOverflow {op : Accumulate} {result : Expr} {n : Nat} (hop : op ≠ .none)
    (hacc : acc.Carries m n y) (hproduct : product.Carries m n z)
    (hresult : result.Carries m n (op.sum y z)) (hy : Sign.signed.Fits .double y)
    (hz : Sign.signed.Fits .double z) :
    (signOverflow (op = .sub) acc product result).Decides m n
      (!decide (Sign.signed.Fits .double (op.sum y z))) := by
  have hdouble : Width.double.bits = 64 := rfl
  have hsigns := Expr.Yields.xor hacc hproduct hdouble
  have hflipped := Expr.Yields.xor hacc hresult hdouble
  cases op with
  | none => exact absurd rfl hop
  | add =>
    have h := ((hsigns.not hdouble).and hflipped hdouble).bit (show 63 < 64 by decide)
    rw [Accumulate.sum, BitVec.ofInt_add, getLsbD_signs_add, saddOverflow_ofInt hy hz] at h
    exact h
  | sub =>
    have h := (hsigns.and hflipped hdouble).bit (show 63 < 64 by decide)
    rw [Accumulate.sum, ofInt_sub, getLsbD_signs_sub, ssubOverflow_ofInt hy hz] at h
    exact h

/-- The bound on the accumulator's side is the one that was crossed. -/
theorem yields_clampedToward {op : Accumulate} {v result : Expr} {n : Nat} (hop : op ≠ .none)
    (hv : v.Decides m n (!decide (Sign.signed.Fits .double (op.sum y z))))
    (hacc : acc.Carries m n y) (hresult : result.Carries m n (op.sum y z))
    (hy : Sign.signed.Fits .double y) (hz : Sign.signed.Fits .double z) :
    (clampedToward v acc result).Carries m n (Sign.signed.clamp .double (op.sum y z)) := by
  have hnegative : (Expr.compare .slt .double acc (.const .double 0)).Decides m n
      (decide (y < 0)) := by
    have h := Expr.Yields.slt hacc (.const_double 0) (w := .double) rfl
    rw [toInt_ofInt_of_fits hy] at h
    exact h
  have hbound : (Expr.select .double (.compare .slt .double acc (.const .double 0))
      (.const .double 0x8000000000000000) (.const .double 0x7FFFFFFFFFFFFFFF)).Carries m n
        (if decide (y < 0) then -2 ^ 63 else 2 ^ 63 - 1) :=
    .select hnegative (.const (by decide)) (.const (by decide))
  have h := Expr.Carries.select hv hbound hresult
  have hvalue : (if (!decide (Sign.signed.Fits .double (op.sum y z))) = true then
      if decide (y < 0) = true then -2 ^ 63 else 2 ^ 63 - 1 else op.sum y z) =
        Sign.signed.clamp .double (op.sum y z) := by
    simp only [Bool.not_eq_true', decide_eq_false_iff_not, decide_eq_true_eq, Sign.fits_signed,
      Sign.clamp, Sign.limits_signed, Width.bits, Width.bytes] at hy hz ⊢
    cases op with
    | none => exact absurd rfl hop
    | add | sub =>
      simp only [Accumulate.sum, max_def, min_def]
      split_ifs <;> omega
  rwa [hvalue] at h

theorem runs_setAccumulated {op : Accumulate} (hop : op ≠ .none) (hacc : acc.Carries m s.temps y)
    (hproduct : product.Carries m s.temps z) (hy : Sign.signed.Fits .double y)
    (hz : Sign.signed.Fits .double z) (hdst : dst.Takes 64) (hpsw : m.core.psw = m₁.core.psw) :
    (setAccumulated dst op sat acc product).Runs pc s m fun _ _ m' =>
      m₁.Delivers .signed .double [op.sum y z] dst (Sign.signed.stored .double sat (op.sum y z))
        m' := by
  refine .bind (.temp (hacc.accumulated hproduct) (by decide)
    fun m₂ result hgrows hpsw₂ hresult => ?_)
  have hacc₂ : acc.Carries m₂ (s.temps + 1) y := hacc.mono hgrows (Nat.le_succ _)
  have hproduct₂ : product.Carries m₂ (s.temps + 1) z := hproduct.mono hgrows (Nat.le_succ _)
  have hoverflow := decides_signOverflow hop hacc₂ hproduct₂ hresult hy hz
  refine .bind (.temp_truth hoverflow fun m₃ v hgrows₃ hpsw₃ hv => ?_)
  have hacc₃ : acc.Carries m₃ (s.temps + 1 + 1) y := hacc₂.mono hgrows₃ (Nat.le_succ _)
  have hresult₃ : result.Carries m₃ (s.temps + 1 + 1) (op.sum y z) :=
    hresult.mono hgrows₃ (Nat.le_succ _)
  refine runs_deliver ?_ ?_ ?_ hdst ((hpsw₃.trans hpsw₂).trans hpsw)
  · simpa only [List.any_cons, List.any_nil, Bool.or_false] using hv
  · simpa only [List.any_cons, List.any_nil, Bool.or_false] using hresult₃.advanced
  · cases sat with
    | true => exact yields_clampedToward hop hv hacc₃ hresult₃ hy hz
    | false => exact hresult₃

/-- Overflow by comparison: a sum that wrapped is below the accumulator, and a difference wraps if
the accumulator is below the product. -/
theorem decides_wrapped {subtract : Bool} {result : Expr} {n : Nat} (hacc : acc.Carries m n y)
    (hproduct : product.Carries m n z)
    (hresult : result.Carries m n ((if subtract then .sub else .add : Accumulate).sum y z))
    (hy : Sign.unsigned.Fits .double y) (hz : Sign.unsigned.Fits .double z) :
    (if subtract then Expr.compare .ult .double acc product
      else Expr.compare .ult .double result acc).Decides m n
        (!decide (Sign.unsigned.Fits .double
          ((if subtract then .sub else .add : Accumulate).sum y z))) := by
  have hy' := toNat_ofInt_of_fits hy
  have hz' := toNat_ofInt_of_fits hz
  simp only [Sign.fits_unsigned, Width.bits, Width.bytes] at hy hz ⊢
  cases subtract with
  | true =>
    have h := Expr.Yields.ult hacc hproduct (w := .double) rfl
    have hvalue : decide ((BitVec.ofInt 64 y).toNat < (BitVec.ofInt 64 z).toNat) =
        !decide (0 ≤ y - z ∧ y - z < 2 ^ 64) := by
      rw [← decide_not, decide_eq_decide]
      omega
    rw [hvalue] at h
    exact h
  | false =>
    have h : (Expr.compare .ult .double result acc).Decides m n
        (decide ((BitVec.ofInt 64 (y + z)).toNat < (BitVec.ofInt 64 y).toNat)) :=
      Expr.Yields.ult hresult hacc rfl
    have hvalue : decide ((BitVec.ofInt 64 (y + z)).toNat < (BitVec.ofInt 64 y).toNat) =
        !decide (0 ≤ y + z ∧ y + z < 2 ^ 64) := by
      rw [← decide_not, decide_eq_decide, BitVec.toNat_ofInt]
      omega
    rw [hvalue] at h
    exact h

theorem runs_setAccumulatedU {subtract : Bool} (hacc : acc.Carries m s.temps y)
    (hproduct : product.Carries m s.temps z) (hy : Sign.unsigned.Fits .double y)
    (hz : Sign.unsigned.Fits .double z) (hdst : dst.Takes 64) (hpsw : m.core.psw = m₁.core.psw) :
    let exact := (if subtract then .sub else .add : Accumulate).sum y z
    (setAccumulatedU dst subtract sat acc product).Runs pc s m fun _ _ m' =>
      m₁.Delivers .unsigned .double [exact] dst (Sign.unsigned.stored .double sat exact) m' := by
  intro exact
  refine .bind (.temp (hacc.accumulated hproduct) (by decide)
    fun m₂ result hgrows hpsw₂ hresult => ?_)
  have hacc₂ : acc.Carries m₂ (s.temps + 1) y := hacc.mono hgrows (Nat.le_succ _)
  have hproduct₂ : product.Carries m₂ (s.temps + 1) z := hproduct.mono hgrows (Nat.le_succ _)
  have hwrapped := decides_wrapped hacc₂ hproduct₂ hresult hy hz
  refine .bind (.temp_truth hwrapped fun m₃ v hgrows₃ hpsw₃ hv => ?_)
  have hresult₃ : result.Carries m₃ (s.temps + 1 + 1) exact := hresult.mono hgrows₃ (Nat.le_succ _)
  refine runs_deliver ?_ ?_ ?_ hdst ((hpsw₃.trans hpsw₂).trans hpsw)
  · simpa only [List.any_cons, List.any_nil, Bool.or_false] using hv
  · simpa only [List.any_cons, List.any_nil, Bool.or_false] using hresult₃.advanced
  · cases sat with
    | false => exact hresult₃
    | true =>
      have hbound : (Expr.const .double (if subtract then 0 else .allOnes 64)).Carries m₃
          (s.temps + 1 + 1) (if subtract then 0 else 2 ^ 64 - 1) := by
        cases subtract <;> exact .const (by decide)
      have h := Expr.Carries.select hv hbound hresult₃
      -- A sum can only be too large, a difference only negative.
      have hvalue : (if (!decide (Sign.unsigned.Fits .double exact)) = true then
          if subtract then 0 else 2 ^ 64 - 1 else exact) = Sign.unsigned.clamp .double exact := by
        simp only [Bool.not_eq_true', decide_eq_false_iff_not, Sign.fits_unsigned, Sign.clamp,
          Sign.limits_unsigned, Width.bits, Width.bytes, max_def, min_def] at hy hz ⊢
        cases subtract with
        | true | false =>
          simp only [exact, Accumulate.sum, if_true, if_false, Bool.false_eq_true]
          split_ifs <;> omega
      rwa [hvalue] at h

end Lift

end Tricore
