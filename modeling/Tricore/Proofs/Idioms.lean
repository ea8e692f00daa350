import Mathlib
import Tricore.Proofs.Values

/-!
# What the idioms mean

The branch-free idioms in terms of the values they stand for: `select` is a choice, `advanced` tells
if the two top bits differ, and of a 64-bit value `overflow` tells if the number it holds fits a
width (`Sign.Fits`) and `saturate` is the nearest number that does (`Sign.clamp`). The number is
always read in 64-bit two's complement, also where the width is unsigned.
-/

namespace Tricore

/-! ## Numbers and widths -/

theorem setWidth_ofInt {j k : Nat} (h : k ≤ j) (z : Int) :
    (BitVec.ofInt j z).setWidth k = BitVec.ofInt k z := by
  have hdvd : (2 ^ k : Int) ∣ 2 ^ j := pow_dvd_pow 2 h
  have hpos (n : Nat) : 0 ≤ z % (2 ^ n : Int) := Int.emod_nonneg z (by positivity)
  refine BitVec.eq_of_toNat_eq ?_
  rw [BitVec.toNat_setWidth, BitVec.toNat_ofInt, BitVec.toNat_ofInt]
  zify
  rw [Int.toNat_of_nonneg (hpos j), Int.toNat_of_nonneg (hpos k), Int.emod_emod_of_dvd z hdvd]

/-- Two half-words, put together. -/
theorem or_shiftLeft_halves (x y : BitVec 16) :
    x.setWidth 32 ||| y.setWidth 32 <<< 16 = y ++ x := by
  refine BitVec.eq_of_getLsbD_eq fun i hi => ?_
  rw [BitVec.getLsbD_or, BitVec.getLsbD_shiftLeft, BitVec.getLsbD_append]
  by_cases h : i < 16
  · simp [h, hi]
  · simp [h, hi, show i - 16 < 32 by omega, BitVec.getLsbD_of_ge x i (by omega)]

namespace Sign

theorem limits_signed (w : Width) :
    limits .signed w = (-2 ^ (w.bits - 1), 2 ^ (w.bits - 1) - 1) := by
  cases w <;> rfl

theorem limits_unsigned (w : Width) : limits .unsigned w = (0, 2 ^ w.bits - 1) := by
  cases w <;> rfl

/-- The number fits the width. -/
def Fits (s : Sign) (w : Width) (z : Int) : Prop := (s.limits w).1 ≤ z ∧ z ≤ (s.limits w).2

instance (s : Sign) (w : Width) (z : Int) : Decidable (s.Fits w z) :=
  inferInstanceAs (Decidable (_ ∧ _))

/-- The nearest number that fits the width. -/
def clamp (s : Sign) (w : Width) (z : Int) : Int := max (s.limits w).1 (min z (s.limits w).2)

/-- Exactly the numbers that fit come back when they are cut to the width and widened again. -/
theorem eq_widen_iff (s : Sign) {w : Width} (hw : w ≠ .double) (x : Value) :
    x = s.widen 64 (x.setWidth w.bits) ↔ s.Fits w x.toInt := by
  cases s with
  | unsigned =>
    have hx := x.isLt
    rw [← BitVec.toNat_inj, Fits, limits_unsigned, BitVec.toInt_eq_toNat_cond]
    cases w with
    | double => exact absurd rfl hw
    | byte | half | word =>
      simp only [widen, Width.bits, Width.bytes, BitVec.toNat_setWidth]
      split <;> omega
  | signed =>
    have hcut : (x.setWidth w.bits).toInt = x.toInt.bmod (2 ^ w.bits) := by
      rw [← BitVec.toInt_ofInt, ← setWidth_ofInt (Width.bits_le w), BitVec.ofInt_toInt]
    rw [← BitVec.toInt_inj, widen, BitVec.toInt_signExtend_of_le (Width.bits_le w), Fits,
      limits_signed]
    constructor
    · intro h
      rw [h]
      exact ⟨BitVec.le_toInt _, Int.le_sub_one_of_lt BitVec.toInt_lt⟩
    · rintro ⟨hlo, hhi⟩
      rw [hcut]
      refine (Int.bmod_eq_of_le ?_ ?_).symm <;> cases w <;>
        simp only [Width.bits, Width.bytes] at hlo hhi ⊢ <;> omega

/-- The limits of a narrower width are 64-bit numbers. -/
theorem toInt_ofInt_limits (s : Sign) {w : Width} (hw : w ≠ .double) :
    (BitVec.ofInt 64 (s.limits w).1).toInt = (s.limits w).1 ∧
      (BitVec.ofInt 64 (s.limits w).2).toInt = (s.limits w).2 := by
  cases w with
  | double => exact absurd rfl hw
  | byte | half | word => cases s <;> decide

theorem limits_le (s : Sign) (w : Width) : (s.limits w).1 ≤ (s.limits w).2 := by
  cases s <;> cases w <;> decide

end Sign

theorem or_words (x y : Word) : x.setWidth 64 <<< 32 ||| y.setWidth 64 = x ++ y := by
  refine BitVec.eq_of_getLsbD_eq fun i hi => ?_
  rw [BitVec.getLsbD_or, BitVec.getLsbD_shiftLeft, BitVec.getLsbD_append]
  by_cases h : i < 32
  · simp [h, hi]
  · simp [h, hi, BitVec.getLsbD_of_ge y i (by omega), show i - 32 < 64 by omega]

/-! ## Idioms -/

namespace Expr.Yields

variable {β : Type} [Bus β] {m : Machine β} {n j k : Nat} {w : Width} {a b c : Expr}
  {x y : BitVec k} {t : Bool}

theorem resize (ha : a.Yields m n x) (hw : w.bits = j) :
    (a.resize w).Yields m n (x.setWidth j) := by
  have hbits := ha.bits
  unfold Width.bits at hw hbits
  unfold Expr.resize
  split_ifs with hlt hgt
  · exact ha.extend hw (by omega)
  · exact ha.low hw (by omega)
  · obtain rfl : j = k := by omega
    rwa [BitVec.setWidth_eq]

/-- A choice by a truth value of any width. -/
theorem select_by {l : Nat} (hc : c.Yields m n ((BitVec.ofBool t).setWidth l)) (hl : 1 ≤ l)
    (ha : a.Yields m n x) (hb : b.Yields m n y) (hw : w.bits = k) :
    (Expr.select w c a b).Yields m n (if t then x else y) := by
  have h : (Expr.select w c a b).Yields m n
      (y ^^^ ((x ^^^ y) &&& -(((BitVec.ofBool t).setWidth l).setWidth k))) :=
    hb.xor ((ha.xor hb hw).and ((hc.resize hw).neg hw) hw) hw
  cases t with
  | false => simpa using h
  | true =>
    have hmask : -(((BitVec.ofBool true).setWidth l).setWidth k) = BitVec.allOnes k := by
      rw [← BitVec.neg_one_eq_allOnes]
      congr 1
      have hk : 8 ≤ k := by
        rw [← hw]
        cases w <;> decide
      refine BitVec.eq_of_toNat_eq ?_
      have hpow : 1 < 2 ^ k := Nat.one_lt_two_pow (by omega)
      have hpow' : 1 < 2 ^ l := Nat.one_lt_two_pow (by omega)
      simp [Nat.mod_eq_of_lt hpow, Nat.mod_eq_of_lt hpow']
    rw [hmask, BitVec.and_allOnes, BitVec.xor_comm, BitVec.xor_assoc, BitVec.xor_self,
      BitVec.xor_zero] at h
    exact h

theorem select (hc : c.Decides m n t) (ha : a.Yields m n x) (hb : b.Yields m n y)
    (hw : w.bits = k) : (Expr.select w c a b).Yields m n (if t then x else y) :=
  select_by hc (by decide) ha hb hw

theorem bit (ha : a.Yields m n x) {i : Nat} (hi : i < k) : (a.bit i).Decides m n (x.getLsbD i) := by
  have hbits := ha.bits
  have hcount : (BitVec.ofNat 64 i).toNat = i := by
    rw [BitVec.toNat_ofNat, Nat.mod_eq_of_lt (lt_of_lt_of_le hi (ha.le.trans (by decide)))]
  have hshifted : (if i = 0 then a else .lsr a.width a (.const a.width (.ofNat 64 i))).Yields m n
      (x >>> i) := by
    split_ifs with h0
    · rwa [h0, BitVec.ushiftRight_zero]
    · have hlsr := ha.lsr_const (c := .ofNat 64 i) hbits (by rwa [hcount])
      rwa [hcount] at hlsr
  have h8 : 8 ≤ k := by
    rw [← hbits]
    cases a.width <;> decide
  have hlow := hshifted.low (w := .byte) rfl h8
  have h : (a.bit i).Yields m n ((x >>> i).setWidth 8 &&& 1) := hlow.and (.const 1 rfl) rfl
  have hvalue : (x >>> i).setWidth 8 &&& 1 = (BitVec.ofBool (x.getLsbD i)).setWidth 8 := by
    refine BitVec.eq_of_getLsbD_eq fun j hj => ?_
    by_cases h0 : j = 0
    · simp [h0]
    · simp [h0, BitVec.getLsbD_one]
  rwa [hvalue] at h

/-- The advanced overflow is the exclusive or of the two top bits. -/
theorem advanced (ha : a.Yields m n x) (hk : 2 ≤ k) :
    a.advanced.Decides m n (x.getLsbD (k - 1) ^^ x.getLsbD (k - 2)) := by
  have hbits := ha.bits
  have hshift : (Expr.shl a.width a (.const a.width 1)).Yields m n (x <<< 1) :=
    ha.shl_const hbits (show 1 < k by omega)
  have h := (ha.xor hshift hbits).bit (show k - 1 < k by omega)
  have hvalue : (x ^^^ x <<< 1).getLsbD (k - 1) = (x.getLsbD (k - 1) ^^ x.getLsbD (k - 2)) := by
    rw [BitVec.getLsbD_xor, BitVec.getLsbD_shiftLeft]
    simp [show k - 1 < k by omega, show ¬ k - 1 < 1 by omega, show k - 1 - 1 = k - 2 by omega]
  have hadvanced : a.advanced =
      (Expr.xor a.width a (.shl a.width a (.const a.width 1))).bit (k - 1) := by
    rw [← hbits]
    rfl
  rwa [hadvanced, ← hvalue]

/-- Two words side by side. -/
theorem pair {x y : Word} (ha : a.Yields m n x) (hb : b.Yields m n y) :
    (Expr.pair a b).Yields m n (x ++ y) := by
  have hdouble : Width.double.bits = 64 := rfl
  have hhi : (Expr.zext .double a).Yields m n (x.setWidth 64) := ha.extend rfl (by decide)
  have hlo : (Expr.zext .double b).Yields m n (y.setWidth 64) := hb.extend rfl (by decide)
  exact or_words x y ▸ (hhi.shl_const (c := 32) hdouble (by decide)).or hlo hdouble

variable {z : Value} {s : Sign} (hw : w ≠ .double)
include hw

theorem overflow (ha : a.Yields m n z) :
    (a.overflow w s).Decides m n (decide (¬ s.Fits w z.toInt)) := by
  have hback : (Expr.extend s .double (.low w a)).Yields m n (s.widen 64 (z.setWidth w.bits)) :=
    (ha.low rfl (Width.bits_le w)).extend rfl (Width.bits_le w)
  have h : (a.overflow w s).Decides m n
      (z.setWidth 64 != (s.widen 64 (z.setWidth w.bits)).setWidth 64) := ha.compare hback rfl
  rw [BitVec.setWidth_eq, BitVec.setWidth_eq] at h
  have hvalue : (z != s.widen 64 (z.setWidth w.bits)) = decide (¬ s.Fits w z.toInt) := by
    rw [Bool.eq_iff_iff, bne_iff_ne, decide_eq_true_iff, ← Sign.eq_widen_iff s hw]
  rwa [hvalue] at h

theorem saturate (ha : a.Yields m n z) :
    (a.saturate w s).Yields m n (BitVec.ofInt w.bits (s.clamp w z.toInt)) := by
  have hdouble : Width.double.bits = 64 := rfl
  have hlo : (Expr.const .double (.ofInt 64 (s.limits w).1)).Yields m n _ := .const_double _
  have hhi : (Expr.const .double (.ofInt 64 (s.limits w).2)).Yields m n _ := .const_double _
  have hbelow := select (ha.sgt hhi hdouble) hhi ha hdouble
  have hclamped := select (ha.slt hlo hdouble) hlo hbelow hdouble
  have h : (a.saturate w s).Yields m n _ := hclamped.low rfl (Width.bits_le w)
  -- The choices are those of the clamp, on numbers that 64 bits can hold.
  obtain ⟨hmin, hmax⟩ := Sign.toInt_ofInt_limits s hw
  have hle := s.limits_le w
  rw [hmin, hmax] at h
  have hvalue : (if decide (z.toInt < (s.limits w).1) then BitVec.ofInt 64 (s.limits w).1
      else if decide ((s.limits w).2 < z.toInt) then BitVec.ofInt 64 (s.limits w).2 else z) =
      BitVec.ofInt 64 (s.clamp w z.toInt) := by
    unfold Sign.clamp
    simp only [decide_eq_true_eq]
    split_ifs with hlo hhi
    · rw [max_eq_left (by omega)]
    · rw [min_eq_right (by omega), max_eq_right hle]
    · rw [min_eq_left (by omega), max_eq_right (by omega), BitVec.ofInt_toInt]
  rwa [hvalue, setWidth_ofInt (Width.bits_le w)] at h

end Expr.Yields

end Tricore
