import Mathlib
import Tricore.Proofs.Accumulation

/-!
# Multiply-accumulate of fractions

Words and half-words as signed fractions, multiplied with a shift to the left by zero or one. The
product of two fractions of one width is exact but in one place (`pinned`): of two least fractions
the shift would carry it out of range, and there it is the greatest number instead. So every product
stays in 64 bits, and so does what a word accumulates of it (`fits_term`, `fits_narrow_sum`).

`FractionSource.sum` is the exact result and `fractions_match_integers` says that every
multiply-accumulate of fractions delivers it.
-/

namespace Tricore

/-! ## Numbers -/

/-- The upper or the lower half of a word, -/
def halfWord (upper : Bool) (x : Word) : BitVec 16 := (if upper then x >>> 16 else x).setWidth 16

/-- and the signed number in it. -/
def halfNumber (upper : Bool) (x : Word) : Int := (halfWord upper x).toInt

/-- The product of two numbers of so many bits, times 2^n. For n = 1 that of two least numbers is
pinned to the greatest number of twice the bits. -/
def pinned (bits : Nat) (x y : Int) (n : Nat) : Int :=
  if n = 1 ∧ x = -2 ^ (bits - 1) ∧ y = -2 ^ (bits - 1) then 2 ^ (2 * bits - 1) - 1
  else x * y * 2 ^ n

/-- A result; after rounding its low half-word is cleared. -/
def rounded (round : Bool) {k : Nat} (v : BitVec k) : BitVec k :=
  if round then v >>> 16 <<< 16 else v

theorem rounded_word (x : Word) : rounded true x = halfWord true x ++ (0 : BitVec 16) := by
  refine BitVec.eq_of_getLsbD_eq fun i hi => ?_
  rw [rounded, if_pos rfl, BitVec.getLsbD_shiftLeft, BitVec.getLsbD_append]
  by_cases h : i < 16
  · simp [h]
  · simp [h, halfWord, hi, show i - 16 < 16 by omega]

theorem and_upper (x : Word) : x &&& 0xFFFF0000 = halfWord true x ++ (0 : BitVec 16) := by
  have hmask : (0xFFFF0000 : Word) = BitVec.allOnes 32 <<< 16 := by decide
  refine BitVec.eq_of_getLsbD_eq fun i hi => ?_
  rw [hmask, BitVec.getLsbD_and, BitVec.getLsbD_shiftLeft, BitVec.getLsbD_allOnes,
    BitVec.getLsbD_append]
  by_cases h : i < 16
  · simp [h]
  · simp [h, halfWord, hi, show i - 16 < 32 by omega, show i - 16 < 16 by omega,
      show 16 + (i - 16) = i by omega]

theorem abs_mul_le {x y a b : Int} (hx : |x| ≤ a) (hy : |y| ≤ b) : |x * y| ≤ a * b := by
  rw [abs_mul]
  exact mul_le_mul hx hy (abs_nonneg y) ((abs_nonneg x).trans hx)

theorem abs_shifted_le {z a : Int} {n k : Nat} (hz : |z| ≤ a) (hn : n ≤ k) :
    |z * 2 ^ n| ≤ a * 2 ^ k := by
  refine abs_mul_le hz ?_
  rw [abs_of_nonneg (by positivity)]
  exact pow_le_pow_right₀ (by decide) hn

theorem abs_halfNumber_le (upper : Bool) (x : Word) : |halfNumber upper x| ≤ 2 ^ 15 :=
  abs_toInt_le _

/-- Of half-words every shift leaves a small product. -/
theorem abs_pinned_half_le {x y : Int} (hx : |x| ≤ 2 ^ 15) (hy : |y| ≤ 2 ^ 15) {n : Nat}
    (hn : n < 4) : |pinned 16 x y n| ≤ 2 ^ 33 := by
  unfold pinned
  split_ifs
  · decide
  · exact abs_shifted_le (abs_mul_le hx hy) (show n ≤ 3 by omega)

/-- Only the product of two least words is so large that two times it is out of range. -/
theorem product_lt_of_not_least {x y : Word} (h : ¬ (x.toInt = -2 ^ 31 ∧ y.toInt = -2 ^ 31)) :
    x.toInt * y.toInt < 2 ^ 62 := by
  have hx : -2 ^ 31 ≤ x.toInt ∧ x.toInt < 2 ^ 31 := ⟨BitVec.le_toInt x, BitVec.toInt_lt⟩
  have hy : -2 ^ 31 ≤ y.toInt ∧ y.toInt < 2 ^ 31 := ⟨BitVec.le_toInt y, BitVec.toInt_lt⟩
  by_cases hleast : x.toInt = -2 ^ 31
  · rw [hleast]
    omega
  · have hx' : |x.toInt| ≤ 2 ^ 31 - 1 := abs_le.2 ⟨by omega, by omega⟩
    have hproduct := abs_mul_le hx' (abs_toInt_le y)
    rw [abs_le] at hproduct
    omega

theorem fits_pinned_word (x y : Word) {n : Nat} (hn : n ≤ 1) :
    Sign.signed.Fits .double (pinned 32 x.toInt y.toInt n) := by
  have hlo : -2 ^ 62 ≤ x.toInt * y.toInt := BitVec.le_toInt_mul_toInt
  have hhi : x.toInt * y.toInt ≤ 2 ^ 62 := BitVec.toInt_mul_toInt_le
  rw [Sign.fits_signed]
  simp only [Width.bits, Width.bytes]
  unfold pinned
  split_ifs with hleast
  · decide
  -- Twice the product is in range unless both factors are least.
  · obtain rfl | rfl : n = 0 ∨ n = 1 := by omega
    · constructor <;> omega
    · have hlt := product_lt_of_not_least fun h => hleast ⟨rfl, h⟩
      constructor <;> omega

/-! ## Products as expressions -/

namespace Expr.Carries

variable {β : Type} [Bus β] {m : Machine β} {n : Nat} {a b c : Expr} {x y z : Int} {t : Bool}

/-- A shift to the right divides the number that is left after wrapping around. -/
theorem asr {v : Value} (ha : a.Carries m n z) (hv : v.toNat < 64) :
    (Expr.asr .double a (.const .double v)).Carries m n
      ((BitVec.ofInt 64 z).toInt / 2 ^ v.toNat) := by
  have h := Yields.asr_const ha (w := .double) rfl hv
  have hvalue : (BitVec.ofInt 64 z).sshiftRight v.toNat =
      BitVec.ofInt 64 ((BitVec.ofInt 64 z).toInt / 2 ^ v.toNat) := by
    rw [← BitVec.ofInt_toInt (x := BitVec.sshiftRight _ _), BitVec.toInt_sshiftRight,
      Int.shiftRight_eq_div_pow]
    push_cast
    rfl
  rwa [hvalue] at h

/-- A choice of which only the side that is taken has to be right. -/
theorem choose (hc : c.Decides m n t) (ha : a.Carries m n x) (hb : b.Carries m n y)
    (hx : t = true → x = z) (hy : t = false → y = z) :
    (Expr.select .double c a b).Carries m n z := by
  have h := select hc ha hb
  cases t with
  | true => exact hx rfl ▸ h
  | false => exact hy rfl ▸ h

end Expr.Carries

namespace Lift

variable {β : Type} [Bus β] {m : Machine β} {t n j k : Nat} {a b : Expr}

theorem yields_half {x : Word} (ha : a.Yields m t x) (upper : Bool) :
    (half a upper).Yields m t (halfWord upper x) := by
  cases upper with
  | true => exact (ha.lsr_const (c := 16) rfl (by decide)).low rfl (by decide)
  | false => exact ha.low rfl (by decide)

theorem carries_shiftedProduct {x : BitVec j} {y : BitVec k} (ha : a.Yields m t x)
    (hb : b.Yields m t y) (hn : n < 64) :
    (shiftedProduct a b n).Carries m t (x.toInt * y.toInt * 2 ^ n) := by
  have hcount : (BitVec.ofNat 64 n).toNat = n := by
    rw [BitVec.toNat_ofNat, Nat.mod_eq_of_lt (by omega)]
  have h := ((Expr.Carries.extend .signed ha).mul (.extend .signed hb)).shl (hcount ▸ hn)
  rwa [hcount] at h

theorem decides_bothLeast {w : Width} {least : Value} {x y : BitVec k} (ha : a.Yields m t x)
    (hb : b.Yields m t y) (hw : w.bits = k) (hleast : (least.setWidth k).toInt = -2 ^ (k - 1)) :
    (bothLeast w least a b).Decides m t
      (decide (x.toInt = -2 ^ (k - 1) ∧ y.toInt = -2 ^ (k - 1))) := by
  simp only [← hleast, BitVec.toInt_inj, Bool.decide_and]
  exact (ha.eq (.const least hw) hw).and (hb.eq (.const least hw) hw)

theorem carries_halfProduct {x y : BitVec 16} (ha : a.Yields m t x) (hb : b.Yields m t y)
    (hn : n < 64) : (halfProduct a b n).Carries m t (pinned 16 x.toInt y.toInt n) := by
  have hshifted := carries_shiftedProduct ha hb hn
  unfold halfProduct pinned
  by_cases h1 : n = 1
  · subst h1
    have hboth : (bothLeast .half 0x8000 a b).Decides m t _ :=
      decides_bothLeast ha hb rfl (by decide)
    have hgreatest : (Expr.const .double 0x7FFFFFFF).Carries m t (2 ^ 31 - 1) := .const (by decide)
    have h := Expr.Carries.select hboth hgreatest hshifted
    simpa only [if_true, true_and, decide_eq_true_eq] using h
  · simpa only [h1, if_false, false_and] using hshifted

/-- All of a product of words, or its upper word. -/
theorem carries_wordProduct {x y : Word} (ha : a.Yields m t x) (hb : b.Yields m t y) (hn : n ≤ 1)
    (wide : Bool) :
    (wordProduct wide a b n).Carries m t
      (if wide then pinned 32 x.toInt y.toInt n else pinned 32 x.toInt y.toInt n / 2 ^ 32) := by
  have hboth : (bothLeast .word 0x80000000 a b).Decides m t _ :=
    decides_bothLeast ha hb rfl (by decide)
  -- A product that is pinned has wrapped around.
  let z := (BitVec.ofInt 64 (x.toInt * y.toInt * 2 ^ n)).toInt
  have hz (h : ¬ (n = 1 ∧ x.toInt = -2 ^ 31 ∧ y.toInt = -2 ^ 31)) :
      z = pinned 32 x.toInt y.toInt n := by
    have hfits := fits_pinned_word x y hn
    rw [pinned, if_neg h] at hfits ⊢
    exact toInt_ofInt_of_fits hfits
  have hpart : (if wide then shiftedProduct a b n
      else .asr .double (shiftedProduct a b n) (.const .double 32)).Carries m t
        (if wide then z else z / 2 ^ 32) := by
    have hshifted := carries_shiftedProduct ha hb (show n < 64 by omega)
    cases wide with
    | true => exact .of_yields .signed hshifted
    | false => exact hshifted.asr (by decide)
  rw [wordProduct]
  by_cases h1 : n = 1
  · rw [if_pos h1]
    refine .choose hboth (.of_yields .signed (.const_double _)) hpart (fun h => ?_) (fun h => ?_)
    · have hpinned : pinned 32 x.toInt y.toInt n = 2 ^ 63 - 1 := if_pos ⟨h1, of_decide_eq_true h⟩
      rw [hpinned]
      cases wide <;> decide
    · rw [hz fun hleast => of_decide_eq_false h hleast.2]
  · rw [if_neg h1, ← hz fun hleast => h1 hleast.1]
    exact hpart

end Lift

/-! ## Sources -/

namespace FractionSource

/-- The operands that name two data registers, with the halves that are taken of them. -/
def operands (src : FractionSource) (a b : Nat) : List Operand :=
  match src with
  | .words => [.reg (.d a), .reg (.d b)]
  | .lower => [.reg (.d a), .reg (.d b), .selector "l"]
  | .upper => [.reg (.d a), .reg (.d b), .selector "u"]
  | .lowers => [.reg (.d a), .selector "l", .reg (.d b), .selector "l"]
  | .uppers => [.reg (.d a), .selector "u", .reg (.d b), .selector "u"]

/-- The product of two words or of halves of them, times 2^n; pinned if both have one width. -/
def product (src : FractionSource) (x y : Word) (n : Nat) : Int :=
  match src with
  | .words => pinned 32 x.toInt y.toInt n
  | .lower => x.toInt * halfNumber false y * 2 ^ n
  | .upper => x.toInt * halfNumber true y * 2 ^ n
  | .lowers => pinned 16 (halfNumber false x) (halfNumber false y) n
  | .uppers => pinned 16 (halfNumber true x) (halfNumber true y) n

/-- What is accumulated of a product: a word takes its upper part, 64 bits take all of it. -/
def term (src : FractionSource) (wide : Bool) (product : Int) : Int :=
  match src with
  | .words => if wide then product else product / 2 ^ 32
  | .lower | .upper => if wide then product else product / 2 ^ 16
  | .lowers | .uppers => if wide then product * 2 ^ 16 else product

/-- The exact result of multiply-accumulate. -/
def sum (src : FractionSource) (op : Accumulate) (wide round : Bool) (acc : Int) (x y : Word)
    (n : Nat) : Int :=
  op.sum acc (src.term wide (src.product x y n)) + if round then 0x8000 else 0

end FractionSource

theorem abs_mixed_le (x : Word) (upper : Bool) (y : Word) {n : Nat} (hn : n ≤ 1) :
    |x.toInt * halfNumber upper y * 2 ^ n| ≤ 2 ^ 47 :=
  abs_shifted_le (abs_mul_le (abs_toInt_le x) (abs_halfNumber_le upper y)) hn

theorem abs_halves_le (upper : Bool) (x y : Word) {n : Nat} (hn : n ≤ 1) :
    |pinned 16 (halfNumber upper x) (halfNumber upper y) n| ≤ 2 ^ 33 :=
  abs_pinned_half_le (abs_halfNumber_le upper x) (abs_halfNumber_le upper y) (by omega)

theorem abs_div_le {z a : Int} {k : Nat} (h : |z| ≤ a * 2 ^ k) : |z / 2 ^ k| ≤ a := by
  have hpos : (0 : Int) < 2 ^ k := by positivity
  rw [abs_le] at h ⊢
  exact ⟨Int.le_ediv_of_mul_le hpos (by linarith), Int.ediv_le_of_le_mul hpos h.2⟩

theorem fits_term (src : FractionSource) (x y : Word) {n : Nat} (hn : n ≤ 1) :
    Sign.signed.Fits .double (src.term true (src.product x y n)) := by
  have hhalves (upper : Bool) : Sign.signed.Fits .double
      (pinned 16 (halfNumber upper x) (halfNumber upper y) n * 2 ^ 16) :=
    fits_of_abs_lt ((abs_shifted_le (abs_halves_le upper x y hn) le_rfl).trans_lt (by decide))
  have hmixed (upper : Bool) :
      Sign.signed.Fits .double (x.toInt * halfNumber upper y * 2 ^ n) :=
    fits_of_abs_lt ((abs_mixed_le x upper y hn).trans_lt (by decide))
  cases src with
  | words => exact fits_pinned_word x y hn
  | lower | upper => exact hmixed _
  | lowers | uppers => exact hhalves _

/-- A word takes a small part. -/
theorem abs_term_le (src : FractionSource) (x y : Word) {n : Nat} (hn : n ≤ 1) :
    |src.term false (src.product x y n)| ≤ 2 ^ 33 := by
  cases src with
  | words =>
    have hfits := Sign.fits_signed.1 (fits_pinned_word x y hn)
    simp only [Width.bits, Width.bytes] at hfits
    refine abs_div_le (abs_le.2 ?_)
    simp only [FractionSource.product]
    omega
  | lower | upper => exact abs_div_le ((abs_mixed_le x _ y hn).trans (by decide))
  | lowers | uppers => exact abs_halves_le _ x y hn

theorem abs_rounding_le {z a : Int} (h : |z| ≤ a) (round : Bool) :
    |z + if round then 0x8000 else 0| ≤ a + 2 ^ 15 := by
  rw [abs_le] at h ⊢
  split_ifs <;> omega

theorem fits_narrow_sum (src : FractionSource) (op : Accumulate) (round : Bool) (acc x y : Word)
    {n : Nat} (hn : n ≤ 1) :
    Sign.signed.Fits .double (src.sum op false round acc.toInt x y n) := by
  have h := abs_rounding_le (op.abs_sum_le (abs_toInt_le acc) (abs_term_le src x y hn)) round
  exact fits_of_abs_lt (h.trans_lt (by decide))

namespace Lift

variable {β : Type} [Bus β] {m : Machine β} {t n : Nat} {a b : Expr} {x y : Word}

theorem carries_fractionProduct (src : FractionSource) (wide : Bool) (ha : a.Yields m t x)
    (hb : b.Yields m t y) (hn : n ≤ 1) :
    (fractionProduct src wide a b n).Carries m t (src.term wide (src.product x y n)) := by
  have hmixed (upper : Bool) : (if wide then shiftedProduct a (half b upper) n
      else .asr .double (shiftedProduct a (half b upper) n) (.const .double 16)).Carries m t
        (if wide then x.toInt * halfNumber upper y * 2 ^ n
          else x.toInt * halfNumber upper y * 2 ^ n / 2 ^ 16) := by
    have h := carries_shiftedProduct ha (yields_half hb upper) (show n < 64 by omega)
    cases wide with
    | true => exact h
    | false =>
      have hfits : Sign.signed.Fits .double (x.toInt * (halfWord upper y).toInt * 2 ^ n) :=
        fits_of_abs_lt ((abs_mixed_le x upper y hn).trans_lt (by decide))
      have hupper := h.asr (v := 16) (by decide)
      rwa [toInt_ofInt_of_fits hfits] at hupper
  have hhalves (upper : Bool) : (if wide then
      .shl .double (halfProduct (half a upper) (half b upper) n) (.const .double 16)
      else halfProduct (half a upper) (half b upper) n).Carries m t
        (if wide then pinned 16 (halfNumber upper x) (halfNumber upper y) n * 2 ^ 16
          else pinned 16 (halfNumber upper x) (halfNumber upper y) n) := by
    have h := carries_halfProduct (yields_half ha upper) (yields_half hb upper)
      (show n < 64 by omega)
    cases wide with
    | true => exact h.shl (by decide)
    | false => exact h
  cases src with
  | words => exact carries_wordProduct ha hb hn wide
  | lower => exact hmixed false
  | upper => exact hmixed true
  | lowers => exact hhalves false
  | uppers => exact hhalves true

/-! ## Results -/

theorem yields_upperHalf (ha : a.Yields m t x) :
    (upperHalf a).Yields m t (halfWord true x ++ (0 : BitVec 16)) := by
  have h : (upperHalf a).Yields m t (x &&& 0xFFFF0000) :=
    ha.and (.const 0xFFFF0000 (w := .word) rfl) rfl
  rwa [and_upper] at h

theorem carries_rounding {z : Int} (ha : a.Carries m t z) (round : Bool) :
    (rounding round a).Carries m t (z + if round then 0x8000 else 0) := by
  cases round with
  | true => exact ha.add (.const (by decide))
  | false => rwa [if_neg Bool.false_ne_true, Int.add_zero]

/-- Write a word-sized result, as the last thing that a fraction multiply does. -/
def setFraction (dst : Register) (round sat : Bool) (result : Expr) : Emit Unit := do
  status (result.overflow .word .signed) (Expr.low .word result).advanced
  set dst (if round then upperHalf (fit sat result) else fit sat result)

theorem runs_setFraction {pc : Address} {s : Supply} {m₁ : Machine β} {dst : Nat}
    {round sat : Bool} {result : Expr} {z : Int} (hresult : result.Carries m s.temps z)
    (hz : Sign.signed.Fits .double z) (hpsw : m.core.psw = m₁.core.psw) :
    (setFraction (.d dst) round sat result).Runs pc s m fun _ _ m' =>
      m₁.Delivers .signed .word [z] (.d dst) (rounded round (Sign.signed.stored .word sat z))
        m' := by
  have hfit : (fit sat result).Yields m s.temps (Sign.signed.stored .word sat z) :=
    hresult.stored hz
  refine runs_deliver ?_ ?_ ?_ (.word dst) hpsw
  · simpa only [List.any_cons, List.any_nil, Bool.or_false] using hresult.overflow hz
  · simpa only [List.any_cons, List.any_nil, Bool.or_false] using hresult.advanced_low
  · cases round with
    | true => exact rounded_word _ ▸ yields_upperHalf hfit
    | false => exact hfit

theorem Source.count_of_lt {s : Source} {os : List Operand} (k : Nat) {n : Nat}
    (h : s.operands = os) (hk : os[k]? = some (.imm n)) (hn : n < 4) : s.count k = .ok n := by
  rw [Source.count_of k h hk, BitVec.ofInt_natCast, BitVec.toNat_ofNat,
    Nat.mod_eq_of_lt (by omega)]

end Lift

/-! ## Steps -/

namespace Instruction

variable {β : Type} [Bus β] {isa : Isa} {m : Machine β} {i : Instruction} {src : FractionSource}
  {op : Accumulate} {wide round sat : Bool} {dst acc a b n : Nat}

theorem plan_fractionMultiply {d r : Register}
    (ha : i.row.action = .fractionMultiply src wide op round sat) (hop : op ≠ .none) (hn : n < 4)
    (hsource : (Lift.Source.of i).operands =
      [.reg d, .reg r, .reg (.d a), .reg (.d b), .imm n])
    (hr : Role.value.takes (Operand.reg r).shape = true) :
    i.plan = Lift.emitting (do
      let a ← Lift.temp (.reg (.d a))
      let b ← Lift.temp (.reg (.d b))
      let product ← Lift.temp (Lift.fractionProduct src wide a b n)
      if wide then
        let acc ← Lift.temp (.reg r)
        Lift.setAccumulated d op sat acc product
      else
        let result ← Lift.temp
          (Lift.rounding round (Lift.accumulated op (.sext .double (.reg r)) product))
        Lift.setFraction d round sat result) := by
  simp only [Instruction.plan, ha, Lift.plan, Lift.Plan.fractionMultiply, if_neg hop,
    Nat.reduceAdd, Lift.Source.reg_of 0 hsource rfl, Lift.Source.value_of 1 hsource rfl hr,
    Lift.Source.value_of 2 hsource rfl rfl, Lift.Source.value_of 3 hsource rfl rfl,
    Lift.Source.count_of_lt 4 hsource rfl hn]
  rfl

/-- The product comes first, with both sources kept. -/
theorem runs_fractionProduct {s : Lift.Supply} {e : Expr → Lift.Emit Unit}
    {Q : Unit → Lift.Supply → Machine β → Prop} (hn : n ≤ 1)
    (he : ∀ m' s' p, (m.start i).Grows s.temps m' → s.temps ≤ s'.temps → m'.core.psw = m.core.psw →
      p.Carries m' s'.temps (src.term wide (src.product (Operand.word m.core (.reg (.d a)))
        (Operand.word m.core (.reg (.d b))) n)) → (e p).Runs i.addr s' m' Q) :
    (do
      let a ← Lift.temp (.reg (.d a))
      let b ← Lift.temp (.reg (.d b))
      let product ← Lift.temp (Lift.fractionProduct src wide a b n)
      e product).Runs i.addr s (m.start i) Q := by
  refine .bind (.temp (yields_data m i a _) (by decide) fun m₁ x hgrows₁ hpsw₁ hx => ?_)
  refine .bind (.temp ((yields_data m i b _).mono hgrows₁ (Nat.le_succ _)) (by decide)
    fun m₂ y hgrows₂ hpsw₂ hy => ?_)
  have hproduct := Lift.carries_fractionProduct src wide (hx.mono hgrows₂ (Nat.le_succ _)) hy hn
  refine .bind (.temp hproduct (by decide) fun m₃ p hgrows₃ hpsw₃ hp => ?_)
  refine he m₃ _ p ?_ ?_ ((hpsw₃.trans hpsw₂).trans hpsw₁) hp
  · exact (hgrows₁.trans (Nat.le_succ _) hgrows₂).trans (Nat.le_add_right _ 2) hgrows₃
  · exact Nat.le_add_right _ 3

theorem step_fractionMultiply (hi : m.instruction? isa = some i)
    (ha : i.row.action = .fractionMultiply src wide op round sat) (hop : op ≠ .none)
    (hround : round = true → wide = false) (hn : n ≤ 1)
    (hsource : (Lift.Source.of i).operands =
      [.reg (.whole wide dst), .reg (.whole wide acc), .reg (.d a), .reg (.d b), .imm n]) :
    let d := Register.whole wide dst
    let exact := src.sum op wide round (Operand.number .signed m.core (.reg (.whole wide acc)))
      (Operand.word m.core (.reg (.d a))) (Operand.word m.core (.reg (.d b))) n
    (m.step isa).2 = .done ∧ m.Delivers .signed d.width [exact] d
      (rounded round (Sign.signed.stored d.width sat exact)) (m.step isa).1 := by
  intro d exact
  refine Machine.step_of_runs hi (plan_fractionMultiply ha hop (by omega) hsource ?_) fun s _ => ?_
  · cases wide <;> rfl
  refine runs_fractionProduct hn fun m₁ s₁ p hgrows hle hpsw hp => ?_
  cases wide with
  | true =>
    obtain rfl : round = false := by
      cases round with
      | true => cases hround rfl
      | false => rfl
    have hacc := (yields_dataPair m i acc _).mono hgrows hle
    refine .bind (.temp hacc (by decide) fun m₂ y hgrows₂ hpsw₂ hy => ?_)
    simp only [exact, FractionSource.sum, Bool.false_eq_true, if_false, Int.add_zero]
    exact Lift.runs_setAccumulated hop (.of_yields .signed hy) (hp.mono hgrows₂ (Nat.le_succ _))
      (Sign.fits_number _ _) (fits_term src _ _ hn) (.double dst) (hpsw₂.trans hpsw)
  | false =>
    have hacc := Expr.Carries.extend .signed ((yields_data m i acc _).mono hgrows hle)
    have hsum : (Lift.accumulated op (.sext .double (.reg (.d acc))) p).Carries m₁ s₁.temps _ :=
      hacc.accumulated hp
    refine .bind (.temp (Lift.carries_rounding hsum round) (by decide)
      fun m₂ result _ hpsw₂ hresult => ?_)
    exact Lift.runs_setFraction hresult (fits_narrow_sum src op round _ _ _ hn) (hpsw₂.trans hpsw)

end Instruction

/-! ## All forms -/

/-- What the name of a multiply-accumulate of fractions stands for. -/
structure FractionForm where
  op : Accumulate
  rounds : Bool
  saturates : Bool
  deriving DecidableEq

def FractionForm.named : List (String × FractionForm) :=
  [("madd.q", ⟨.add, false, false⟩), ("madds.q", ⟨.add, false, true⟩),
    ("maddr.q", ⟨.add, true, false⟩), ("maddrs.q", ⟨.add, true, true⟩),
    ("msub.q", ⟨.sub, false, false⟩), ("msubs.q", ⟨.sub, false, true⟩),
    ("msubr.q", ⟨.sub, true, false⟩), ("msubrs.q", ⟨.sub, true, true⟩)]

namespace OperandKind

/-- A data register, or a pair of them. -/
def whole (wide : Bool) (r : RegisterField) : OperandKind := if wide then .dataPair r else .data r

/-- The operands that a fraction multiply takes its product from. -/
def fraction : FractionSource → List OperandKind
  | .words => [da, db]
  | .lower => [da, db, .selector "l"]
  | .upper => [da, db, .selector "u"]
  | .lowers => [da, .selector "l", db, .selector "l"]
  | .uppers => [da, .selector "u", db, .selector "u"]

end OperandKind

theorem Opcode.fraction_rows : ∀ g ∈ table, ∀ r ∈ g.rows, ∀ p ∈ FractionForm.named,
    r.mnemonic = p.1 → g.format = .rrr1 ∧
      ∃ src ∈ [FractionSource.words, .lower, .upper, .lowers, .uppers], ∃ wide ∈ [false, true],
        r.action = .fractionMultiply src wide p.2.op p.2.rounds p.2.saturates ∧
          r.operands = [.whole wide .c, .whole wide .d] ++ OperandKind.fraction src ++ [.index] ∧
          (p.2.rounds = true → wide = false) := by
  decide +kernel

theorem OperandKind.eq_whole_of_resolve {wide : Bool} {r : RegisterField} {format : Format}
    {fields : Fields} {addr : Address} {o : Operand}
    (h : (OperandKind.whole wide r).resolve format fields addr = .ok o) :
    ∃ n, o = .reg (.whole wide n) := by
  refine Operand.exists_whole ?_
  rw [OperandKind.shape_of_resolve h]
  cases wide <;> rfl

theorem FractionSource.eq_operands_of_resolve {src : FractionSource} {format : Format}
    {fields : Fields} {addr : Address} {os : List Operand}
    (h : List.Forall₂ (fun k o => k.resolve format fields addr = .ok o)
      (OperandKind.fraction src ++ [.index]) os) :
    os = src.operands fields.a.toNat fields.b.toNat ++ [.imm fields.n.toNat] := by
  cases src with
  | words => obtain _ | ⟨⟨⟩, _ | ⟨⟨⟩, _ | ⟨⟨⟩, ⟨⟩⟩⟩⟩ := h; rfl
  | lower | upper => obtain _ | ⟨⟨⟩, _ | ⟨⟨⟩, _ | ⟨⟨⟩, _ | ⟨⟨⟩, ⟨⟩⟩⟩⟩⟩ := h; rfl
  | lowers | uppers => obtain _ | ⟨⟨⟩, _ | ⟨⟨⟩, _ | ⟨⟨⟩, _ | ⟨⟨⟩, _ | ⟨⟨⟩, ⟨⟩⟩⟩⟩⟩⟩ := h; rfl

theorem Fields.n_lt_four {format : Format} (hformat : format = .rr1 ∨ format = .rrr1) (raw : Word) :
    (extract format raw).n.toNat < 4 := by
  have h := (bitsAt raw 16 2).isLt
  have hn : (extract format raw).n = (bitsAt raw 16 2).setWidth 5 := by
    rcases hformat with rfl | rfl <;> rfl
  rw [hn, BitVec.toNat_setWidth_of_le (by decide)]
  exact h

/-- Multiply-accumulate of fractions matches integer arithmetic. -/
theorem fractions_match_integers {β : Type} [Bus β] (isa : Isa) (m : Machine β) {i : Instruction}
    {f : FractionForm} (hi : m.instruction? isa = some i)
    (hname : (i.mnemonic, f) ∈ FractionForm.named) :
    ∃ src wide dst acc a b n, i.operands =
        [.reg (.whole wide dst), .reg (.whole wide acc)] ++ FractionSource.operands src a b ++
          [.imm (n : Nat)] ∧
      n < 4 ∧
      let d := Register.whole wide dst
      let exact := src.sum f.op wide f.rounds
        (Operand.number .signed m.core (.reg (.whole wide acc)))
        (Operand.word m.core (.reg (.d a))) (Operand.word m.core (.reg (.d b))) n
      (n ≤ 1 → (m.step isa).2 = .done ∧ m.Delivers .signed d.width [exact] d
        (rounded f.rounds (Sign.signed.stored d.width f.saturates exact)) (m.step isa).1) := by
  obtain ⟨g, hg, hr, raw, addr, hos⟩ := Instruction.resolved hi
  obtain ⟨hformat, src, -, wide, -, ha, hkinds, hround⟩ :=
    Opcode.fraction_rows g hg i.row hr _ hname rfl
  have hop : f.op ≠ .none := by
    have hall : ∀ p ∈ FractionForm.named, p.2.op ≠ .none := by decide
    exact hall _ hname
  -- The operands follow the kinds of the row; in this format the shift has two bits.
  rw [hkinds, hformat, List.append_assoc] at hos
  obtain ⟨dst, acc, a, b, n, hops, hn⟩ : ∃ dst acc a b n, i.operands =
      [.reg (.whole wide dst), .reg (.whole wide acc)] ++ src.operands a b ++ [.imm (n : Nat)] ∧
        n < 4 := by
    generalize i.operands = os at hos
    obtain _ | ⟨hdst, _ | ⟨hacc, hrest⟩⟩ := hos
    obtain ⟨dst, rfl⟩ := OperandKind.eq_whole_of_resolve hdst
    obtain ⟨acc, rfl⟩ := OperandKind.eq_whole_of_resolve hacc
    exact ⟨dst, acc, _, _, _, by rw [FractionSource.eq_operands_of_resolve hrest]; rfl,
      Fields.n_lt_four (.inr rfl) raw⟩
  refine ⟨src, wide, dst, acc, a, b, n, hops, hn, fun hn => ?_⟩
  refine Instruction.step_fractionMultiply hi ha hop hround hn ?_
  rw [Lift.Source.of, hops]
  cases src <;> rfl

/-- `msubs.q e2, e4, d0, d1, 1` with two least words saturates at the least 64-bit number. -/
theorem fractions_match_integers_msubs :
    ((sameWords 0x80000000 [0x63, 0x10, 0xED, 0x24]).step .v16).2 = .done ∧
      ((sameWords 0x80000000 [0x63, 0x10, 0xED, 0x24]).step .v16).1.core.flag .v = true ∧
      ((sameWords 0x80000000 [0x63, 0x10, 0xED, 0x24]).step .v16).1.core.read (.e 2) =
        0x8000000000000000 := by
  obtain ⟨i, hi, hname, hoperands⟩ :
      ∃ i, (sameWords 0x80000000 [0x63, 0x10, 0xED, 0x24]).instruction? .v16 = some i ∧
        (i.mnemonic, ⟨.sub, false, true⟩) ∈ FractionForm.named ∧
        i.operands = [.reg (.e 2), .reg (.e 4), .reg (.d 0), .reg (.d 1), .imm 1] :=
    ⟨_, rfl, by decide +kernel, by decide +kernel⟩
  obtain ⟨src, wide, dst, acc, a, b, n, hops, -, h⟩ := fractions_match_integers .v16
    (sameWords 0x80000000 [0x63, 0x10, 0xED, 0x24]) hi hname
  obtain ⟨rfl, rfl, rfl, rfl, rfl, rfl, rfl⟩ : src = .words ∧ wide = true ∧ dst = 2 ∧ acc = 4 ∧
      a = 0 ∧ b = 1 ∧ n = 1 := by
    rw [hoperands] at hops
    cases src <;> cases wide <;> simp [FractionSource.operands, Register.whole] at hops
    simp only [true_and]
    omega
  obtain ⟨hdone, hdelivers⟩ := h (by decide)
  exact ⟨hdone, hdelivers.reports.v, hdelivers.result⟩

end Tricore
