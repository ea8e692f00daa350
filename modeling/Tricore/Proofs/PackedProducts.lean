import Mathlib
import Tricore.Proofs.Fractions

/-!
# Packed multiply-accumulate

Two products of half-words at a time. Each half of the first source is multiplied with a half of the
second, and the two products are accumulated word by word, half-word by half-word with rounding, or
as one sum. `PackedForm` is what the name of such an instruction stands for and
`PackedForm.Delivers` what it leaves behind; `packed_products_match_integers` says that every
instruction does what its name stands for.
-/

namespace Tricore

/-! ## Parts of a register -/

/-- The two accumulators in a register, upper one first: the words of a pair, or the half-words of a
word times 2^16. -/
def accumulators (wide : Bool) (v : Value) : Int × Int :=
  if wide then (((v >>> 32).setWidth 32).toInt, (v.setWidth 32).toInt)
  else (halfNumber true (v.setWidth 32) * 2 ^ 16, halfNumber false (v.setWidth 32) * 2 ^ 16)

theorem toInt_upper (x : Word) : (halfWord true x ++ (0 : BitVec 16)).toInt =
    halfNumber true x * 2 ^ 16 := by
  rw [halfNumber, Int.mul_comm]
  exact BitVec.toInt_append_zero

theorem toInt_shiftLeft (x : Word) : (x <<< 16).toInt = halfNumber false x * 2 ^ 16 := by
  have happend : x <<< 16 = halfWord false x ++ (0 : BitVec 16) := by
    refine BitVec.eq_of_getLsbD_eq fun i hi => ?_
    rw [BitVec.getLsbD_shiftLeft, BitVec.getLsbD_append]
    by_cases h : i < 16
    · simp [h]
    · simp [h, halfWord, hi, show i - 16 < 16 by omega]
  rw [happend, halfNumber, Int.mul_comm]
  exact BitVec.toInt_append_zero

theorem abs_accumulators_le (wide : Bool) (v : Value) :
    |(accumulators wide v).1| ≤ 2 ^ 31 ∧ |(accumulators wide v).2| ≤ 2 ^ 31 := by
  cases wide with
  | true => exact ⟨abs_toInt_le _, abs_toInt_le _⟩
  | false =>
    exact ⟨abs_shifted_le (abs_halfNumber_le _ _) le_rfl,
      abs_shifted_le (abs_halfNumber_le _ _) le_rfl⟩

theorem or_halves (x y : Word) :
    (halfWord true x ++ (0 : BitVec 16)) ||| y >>> 16 = halfWord true x ++ halfWord true y := by
  refine BitVec.eq_of_getLsbD_eq fun i hi => ?_
  rw [BitVec.getLsbD_or, BitVec.getLsbD_append, BitVec.getLsbD_append, BitVec.getLsbD_ushiftRight]
  by_cases h : i < 16
  · simp [h, halfWord]
  · simp [h, BitVec.getLsbD_of_ge y (16 + i) (by omega)]

namespace Lift

variable {β : Type} [Bus β] {pc : Address} {s : Supply} {m m₁ : Machine β} {t k : Nat}
  {acc p1 p0 : Expr} {dst : Register} {hi lo : Accumulate} {sat : Bool} {z1 z0 : Int}

theorem carries_accumulators_wide (shape : ProductShape) (hshape : shape ≠ .rounded) {v : Value}
    (hacc : acc.Yields m t v) :
    (accumulatorWords shape (some acc)).1.Carries m t (accumulators true v).1 ∧
      (accumulatorWords shape (some acc)).2.Carries m t (accumulators true v).2 := by
  have hupper : acc.highWord.Yields m t ((v >>> 32).setWidth 32) :=
    (hacc.lsr_const (c := 32) rfl (by decide)).low rfl (by decide)
  have hlower : (Expr.low .word acc).Yields m t (v.setWidth 32) := hacc.low rfl (by decide)
  cases shape with
  | rounded => exact absurd rfl hshape
  | pair | merged | roundedWide => exact ⟨.extend .signed hupper, .extend .signed hlower⟩

theorem carries_accumulators_narrow {v : Value} (hacc : acc.Yields m t (v.setWidth 32)) :
    (accumulatorWords .rounded (some acc)).1.Carries m t (accumulators false v).1 ∧
      (accumulatorWords .rounded (some acc)).2.Carries m t (accumulators false v).2 := by
  have hupper := Expr.Carries.extend .signed (yields_upperHalf hacc)
  have hlower := Expr.Carries.extend .signed (hacc.shl_const (c := 16) (w := .word) rfl (by decide))
  rw [Sign.number, toInt_upper] at hupper
  rw [Sign.number, show (16 : Value).toNat = 16 from rfl, toInt_shiftLeft] at hlower
  exact ⟨hupper, hlower⟩

/-- Two words, or their upper halves, side by side. -/
def packed (round : Bool) (e1 e0 : Expr) : Expr :=
  if round then .or .word (upperHalf e1) (.lsr .word e0 (.const .word 16)) else .pair e1 e0

theorem yields_packed_halves {e1 e0 : Expr} {x y : Word} (h1 : e1.Yields m t x)
    (h0 : e0.Yields m t y) :
    (packed true e1 e0).Yields m t (halfWord true x ++ halfWord true y) := by
  have hlow : (Expr.lsr .word e0 (.const .word 16)).Yields m t (y >>> 16) :=
    h0.lsr_const (c := 16) rfl (by decide)
  exact or_halves x y ▸ (yields_upperHalf h1).or hlow rfl

theorem yields_packed_words {e1 e0 : Expr} {x y : Word} (h1 : e1.Yields m t x)
    (h0 : e0.Yields m t y) : (packed false e1 e0).Yields m t (x ++ y) := h1.pair h0

theorem fits_packed_sum (op : Accumulate) (round : Bool) {y z : Int} (hy : |y| ≤ 2 ^ 31)
    (hz : |z| ≤ 2 ^ 33) : Sign.signed.Fits .double (op.sum y z + if round then 0x8000 else 0) :=
  fits_of_abs_lt ((abs_rounding_le (op.abs_sum_le hy hz) round).trans_lt (by decide))

/-- Each sum is reported on and stored on its own. -/
theorem runs_setSeparate {shape : ProductShape} {acc : Option Expr} {y1 y0 w1 w0 : Int}
    {round : Bool} {pack : Word → Word → BitVec k} (hround : decide (shape ≠ .pair) = round)
    (hacc : (accumulatorWords shape acc).1.Carries m s.temps y1 ∧
      (accumulatorWords shape acc).2.Carries m s.temps y0)
    (hp1 : p1.Carries m s.temps z1) (hp0 : p0.Carries m s.temps z0)
    (hy : |y1| ≤ 2 ^ 31 ∧ |y0| ≤ 2 ^ 31) (hz : |z1| ≤ 2 ^ 33 ∧ |z0| ≤ 2 ^ 33)
    (hpack : ∀ {m' : Machine β} {t e1 e0} {x1 x0 : Word}, e1.Yields m' t x1 → e0.Yields m' t x0 →
      (packed round e1 e0).Yields m' t (pack x1 x0))
    (hw1 : hi.sum y1 z1 + (if round then 0x8000 else 0) = w1)
    (hw0 : lo.sum y0 z0 + (if round then 0x8000 else 0) = w0)
    (hdst : dst.Takes k) (hpsw : m.core.psw = m₁.core.psw) :
    (setSeparate dst acc hi lo shape sat p1 p0).Runs pc s m fun _ _ m' =>
      m₁.Delivers .signed .word [w1, w0] dst
        (pack (Sign.signed.stored .word sat w1) (Sign.signed.stored .word sat w0)) m' := by
  have hfits1 : Sign.signed.Fits .double w1 := hw1 ▸ fits_packed_sum hi round hy.1 hz.1
  have hfits0 : Sign.signed.Fits .double w0 := hw0 ▸ fits_packed_sum lo round hy.2 hz.2
  rcases hwords : accumulatorWords shape acc with ⟨acc1, acc0⟩
  rw [hwords] at hacc
  have hsum1 : (accumulated hi acc1 p1).Carries m s.temps (hi.sum y1 z1) := hacc.1.accumulated hp1
  have hsum0 : (accumulated lo acc0 p0).Carries m s.temps (lo.sum y0 z0) := hacc.2.accumulated hp0
  simp only [setSeparate, hround, hwords]
  refine .bind (.temp (carries_rounding hsum1 round) (by decide)
    fun m₂ e1 hgrows₂ hpsw₂ he1 => ?_)
  refine .bind (.temp ((carries_rounding hsum0 round).mono hgrows₂ (Nat.le_succ _)) (by decide)
    fun m₃ e0 hgrows₃ hpsw₃ he0 => ?_)
  have he1' : e1.Carries m₃ (s.temps + 1 + 1) w1 := hw1 ▸ he1.mono hgrows₃ (Nat.le_succ _)
  have he0' : e0.Carries m₃ (s.temps + 1 + 1) w0 := hw0 ▸ he0
  refine runs_deliver ?_ ?_ (hpack (he1'.stored hfits1) (he0'.stored hfits0)) hdst
    ((hpsw₃.trans hpsw₂).trans hpsw)
  · simpa only [List.any_cons, List.any_nil, Bool.or_false] using
      (he1'.overflow hfits1).or (he0'.overflow hfits0)
  · simpa only [List.any_cons, List.any_nil, Bool.or_false] using
      he1'.advanced_low.or he0'.advanced_low

/-- Both products go into one sum. -/
theorem runs_setMerged {v : Value} (hop : hi ≠ .none) (hacc : acc.Yields m s.temps v)
    (hp1 : p1.Carries m s.temps z1) (hp0 : p0.Carries m s.temps z0)
    (hz : |z1| ≤ 2 ^ 33 ∧ |z0| ≤ 2 ^ 33) (hdst : dst.Takes 64)
    (hpsw : m.core.psw = m₁.core.psw) :
    let exact := hi.sum v.toInt ((if hi = lo then z1 + z0 else z1 - z0) * 2 ^ 16)
    (setMerged dst (some acc) hi lo sat p1 p0).Runs pc s m fun _ _ m' =>
      m₁.Delivers .signed .double [exact] dst (Sign.signed.stored .double sat exact) m' := by
  intro exact
  have hmerged : (Expr.binary (if hi = lo ∨ hi = .none then .add else .sub) .double p1 p0).Carries m
      s.temps (if hi = lo then z1 + z0 else z1 - z0) := by
    simp only [hop, or_false]
    split_ifs
    · exact hp1.add hp0
    · exact hp1.sub hp0
  have habs : |if hi = lo then z1 + z0 else z1 - z0| ≤ 2 ^ 34 := by
    rw [abs_le, abs_le] at hz
    rw [abs_le]
    split_ifs <;> omega
  refine .bind (.temp (hmerged.shl (v := 16) (by decide)) (by decide)
    fun m₂ e hgrows₂ hpsw₂ he => ?_)
  refine runs_setAccumulated hop (.of_yields .signed (hacc.mono hgrows₂ (Nat.le_succ _))) he
    (Sign.fits_number _ _) ?_ hdst (hpsw₂.trans hpsw)
  exact fits_of_abs_lt ((abs_shifted_le habs le_rfl).trans_lt (by decide))

end Lift

/-! ## Forms -/

/-- What the name of a packed multiply-accumulate stands for. -/
structure PackedForm where
  upper : Accumulate
  lower : Accumulate
  shape : ProductShape
  saturates : Bool
  deriving DecidableEq

namespace PackedForm

def named : List (String × PackedForm) :=
  [("madd", .add, .add), ("msub", .sub, .sub), ("maddsu", .add, .sub),
    ("msubad", .sub, .add)].flatMap fun (stem, upper, lower) =>
    [(".h", .pair, false), ("s.h", .pair, true), ("m.h", .merged, false), ("ms.h", .merged, true),
      ("r.h", .rounded, false), ("rs.h", .rounded, true)].map fun (suffix, shape, saturates) =>
      (stem ++ suffix, ⟨upper, lower, shape, saturates⟩)

/-- What is left behind, from the accumulator and the two products. -/
def Delivers {β : Type} (f : PackedForm) (m : Machine β) (wide : Bool) (acc : Value) (p1 p0 : Int)
    (dst : Register) (m' : Machine β) : Prop :=
  let sum1 := f.upper.sum (accumulators wide acc).1 p1
  let sum0 := f.lower.sum (accumulators wide acc).2 p0
  let stored := Sign.signed.stored .word f.saturates
  match f.shape with
  | .pair => m.Delivers .signed .word [sum1, sum0] dst (stored sum1 ++ stored sum0) m'
  | .merged =>
    let sum := f.upper.sum acc.toInt ((if f.upper = f.lower then p1 + p0 else p1 - p0) * 2 ^ 16)
    m.Delivers .signed .double [sum] dst (Sign.signed.stored .double f.saturates sum) m'
  | .rounded | .roundedWide =>
    m.Delivers .signed .word [sum1 + 0x8000, sum0 + 0x8000] dst
      (halfWord true (stored (sum1 + 0x8000)) ++ halfWord true (stored (sum0 + 0x8000))) m'

/-- The shape as instructions have it: that with a 64-bit accumulator is told apart. -/
def layout (f : PackedForm) (wide : Bool) : ProductShape :=
  if wide ∧ f.shape = .rounded then .roundedWide else f.shape

end PackedForm

open OperandKind in
theorem Opcode.packed_rows : ∀ g ∈ table, ∀ r ∈ g.rows, ∀ p ∈ PackedForm.named,
    r.mnemonic = p.1 → g.format = .rrr1 ∧
      ∃ h ∈ [HalfPair.ll, .lu, .ul, .uu], ∃ wide ∈ [false, true],
        r.action = .halfMultiply h p.2.upper p.2.lower (p.2.layout wide) p.2.saturates ∧
          r.operands =
            [.whole (p.2.shape ≠ .rounded) .c, .whole wide .d, da, db, halves h, .index] ∧
          (p.2.shape ≠ .rounded → wide = true) := by
  decide +kernel

/-! ## Steps -/

namespace Instruction

variable {β : Type} [Bus β] {isa : Isa} {m : Machine β} {i : Instruction} {h : HalfPair}
  {f : PackedForm} {wide : Bool} {dst acc a b n : Nat}

/-- The two products of half-words. -/
def halfProducts (h : HalfPair) (x y : Word) (n : Nat) : Int × Int :=
  (pinned 16 (halfNumber true x) (halfNumber h.upper y) n,
    pinned 16 (halfNumber false x) (halfNumber h.lower y) n)

theorem abs_halfProducts_le (h : HalfPair) (x y : Word) (hn : n < 4) :
    |(halfProducts h x y n).1| ≤ 2 ^ 33 ∧ |(halfProducts h x y n).2| ≤ 2 ^ 33 :=
  ⟨abs_pinned_half_le (abs_halfNumber_le _ x) (abs_halfNumber_le _ y) hn,
    abs_pinned_half_le (abs_halfNumber_le _ x) (abs_halfNumber_le _ y) hn⟩

theorem plan_halfMultiply {hi lo : Accumulate} {shape : ProductShape} {sat : Bool} {d r : Register}
    (ha : i.row.action = .halfMultiply h hi lo shape sat) (hop : hi ≠ .none) (hn : n < 4)
    (hsource : (Lift.Source.of i).operands =
      [.reg d, .reg r, .reg (.d a), .reg (.d b), .imm n])
    (hr : Role.value.takes (Operand.reg r).shape = true) :
    i.plan = Lift.emitting (do
      let acc ← Lift.temp (.reg r)
      let a ← Lift.temp (.reg (.d a))
      let b ← Lift.temp (.reg (.d b))
      let p1 ← Lift.temp (Lift.halfProduct (Lift.half a true) (Lift.half b h.upper) n)
      let p0 ← Lift.temp (Lift.halfProduct (Lift.half a false) (Lift.half b h.lower) n)
      if shape = .merged then Lift.setMerged d (some acc) hi lo sat p1 p0
      else Lift.setSeparate d (some acc) hi lo shape sat p1 p0) := by
  simp only [Instruction.plan, ha, Lift.plan, Lift.Plan.halfMultiply, if_neg hop,
    Nat.reduceAdd, Lift.Source.reg_of 0 hsource rfl, Lift.Source.value_of 1 hsource rfl hr,
    Lift.Source.value_of 2 hsource rfl rfl, Lift.Source.value_of 3 hsource rfl rfl,
    Lift.Source.count_of_lt 4 hsource rfl hn]
  cases shape <;> rfl

/-- Both sources are kept before the products are taken. -/
theorem runs_halfProducts {s : Lift.Supply} {m₀ : Machine β} {x y : Word} {pc : Address}
    {e : Expr → Expr → Lift.Emit Unit} {Q : Unit → Lift.Supply → Machine β → Prop}
    (hx : (Expr.reg (.d a)).Yields m₀ s.temps x) (hy : (Expr.reg (.d b)).Yields m₀ s.temps y)
    (hn : n < 4)
    (he : ∀ m' s' p1 p0, m₀.Grows s.temps m' → s.temps ≤ s'.temps → m'.core.psw = m₀.core.psw →
      p1.Carries m' s'.temps (halfProducts h x y n).1 →
        p0.Carries m' s'.temps (halfProducts h x y n).2 → (e p1 p0).Runs pc s' m' Q) :
    (do
      let a ← Lift.temp (.reg (.d a))
      let b ← Lift.temp (.reg (.d b))
      let p1 ← Lift.temp (Lift.halfProduct (Lift.half a true) (Lift.half b h.upper) n)
      let p0 ← Lift.temp (Lift.halfProduct (Lift.half a false) (Lift.half b h.lower) n)
      e p1 p0).Runs pc s m₀ Q := by
  have hn64 : n < 64 := by omega
  refine .bind (.temp hx (by decide) fun m₁ a hgrows₁ hpsw₁ ha => ?_)
  refine .bind (.temp (hy.mono hgrows₁ (Nat.le_succ _)) (by decide)
    fun m₂ b hgrows₂ hpsw₂ hb => ?_)
  replace ha := ha.mono hgrows₂ (Nat.le_succ _)
  have hp1 :=
    Lift.carries_halfProduct (Lift.yields_half ha true) (Lift.yields_half hb h.upper) hn64
  have hp0 :=
    Lift.carries_halfProduct (Lift.yields_half ha false) (Lift.yields_half hb h.lower) hn64
  refine .bind (.temp hp1 (by decide) fun m₃ p1 hgrows₃ hpsw₃ hp1 => ?_)
  refine .bind (.temp (hp0.mono hgrows₃ (Nat.le_succ _)) (by decide)
    fun m₄ p0 hgrows₄ hpsw₄ hp0 => ?_)
  have hgrows₁₂ : m₀.Grows s.temps m₂ := hgrows₁.trans (Nat.le_succ _) hgrows₂
  have hgrows₁₃ : m₀.Grows s.temps m₃ := hgrows₁₂.trans (Nat.le_add_right _ 2) hgrows₃
  refine he m₄ _ p1 p0 (hgrows₁₃.trans (Nat.le_add_right _ 3) hgrows₄) (Nat.le_add_right _ 4) ?_
    (hp1.mono hgrows₄ (Nat.le_succ _)) hp0
  rw [hpsw₄, hpsw₃, hpsw₂, hpsw₁]

/-- The accumulator is kept first. -/
theorem runs_accumulatedProducts {s : Lift.Supply} {e : Expr → Expr → Expr → Lift.Emit Unit}
    {Q : Unit → Lift.Supply → Machine β → Prop} {r : Register} {k : Nat} {v : BitVec k}
    (hacc : (Expr.reg r).Yields (m.start i) s.temps v) (hk : 32 ≤ k) (hn : n < 4)
    (he : ∀ m' s' x p1 p0, m'.core.psw = m.core.psw → x.Yields m' s'.temps v →
      let products := halfProducts h (Operand.word m.core (.reg (.d a)))
        (Operand.word m.core (.reg (.d b))) n
      p1.Carries m' s'.temps products.1 → p0.Carries m' s'.temps products.2 →
        (e x p1 p0).Runs i.addr s' m' Q) :
    (do
      let acc ← Lift.temp (.reg r)
      let a ← Lift.temp (.reg (.d a))
      let b ← Lift.temp (.reg (.d b))
      let p1 ← Lift.temp (Lift.halfProduct (Lift.half a true) (Lift.half b h.upper) n)
      let p0 ← Lift.temp (Lift.halfProduct (Lift.half a false) (Lift.half b h.lower) n)
      e acc p1 p0).Runs i.addr s (m.start i) Q := by
  refine .bind (.temp hacc hk fun m₁ z hgrows₁ hpsw₁ hz => ?_)
  have hx := (yields_data m i a s.temps).mono hgrows₁ (Nat.le_succ _)
  have hy := (yields_data m i b s.temps).mono hgrows₁ (Nat.le_succ _)
  refine runs_halfProducts hx hy hn fun m' s' p1 p0 hgrows hle hpsw hp1 hp0 => ?_
  exact he m' s' z p1 p0 (hpsw.trans hpsw₁) (hz.mono hgrows hle) hp1 hp0

theorem step_halfMultiply (hi : m.instruction? isa = some i)
    (ha : i.row.action = .halfMultiply h f.upper f.lower (f.layout wide) f.saturates)
    (hop : f.upper ≠ .none) (hshape : f.shape ≠ .roundedWide)
    (hwide : f.shape ≠ .rounded → wide = true) (hn : n < 4)
    (hsource : (Lift.Source.of i).operands = [.reg (.whole (f.shape ≠ .rounded) dst),
      .reg (.whole wide acc), .reg (.d a), .reg (.d b), .imm n]) :
    let products := halfProducts h (Operand.word m.core (.reg (.d a)))
      (Operand.word m.core (.reg (.d b))) n
    (m.step isa).2 = .done ∧
      f.Delivers m wide (m.core.read (.whole wide acc)) products.1 products.2
        (.whole (f.shape ≠ .rounded) dst) (m.step isa).1 := by
  intro products
  have hproducts := abs_halfProducts_le h (Operand.word m.core (.reg (.d a)))
    (Operand.word m.core (.reg (.d b))) hn
  have hbounds (v : Value) := abs_accumulators_le wide v
  refine Machine.step_of_runs hi (plan_halfMultiply ha hop hn hsource ?_) fun s _ => ?_
  · cases wide <;> rfl
  obtain ⟨upper, lower, shape, sat⟩ := f
  -- Only the rounded form takes a word for its accumulator.
  cases wide with
  | false =>
    obtain rfl : shape = .rounded := by
      by_contra hne
      cases hwide hne
    refine runs_accumulatedProducts (yields_data m i acc _) (by decide) hn
      fun m₁ s₁ x p1 p0 hpsw hx hp1 hp0 => ?_
    exact Lift.runs_setSeparate rfl (Lift.carries_accumulators_narrow hx) hp1 hp0 (hbounds _)
      hproducts Lift.yields_packed_halves rfl rfl (.word dst) hpsw
  | true =>
    refine runs_accumulatedProducts (yields_dataPair m i acc _) (by decide) hn
      fun m₁ s₁ x p1 p0 hpsw hx hp1 hp0 => ?_
    cases shape with
    | pair =>
      exact Lift.runs_setSeparate rfl (Lift.carries_accumulators_wide .pair (by decide) hx) hp1 hp0
        (hbounds _) hproducts Lift.yields_packed_words (Int.add_zero _) (Int.add_zero _)
        (.double dst) hpsw
    | merged => exact Lift.runs_setMerged hop hx hp1 hp0 hproducts (.double dst) hpsw
    | rounded =>
      exact Lift.runs_setSeparate rfl
        (Lift.carries_accumulators_wide .roundedWide (by decide) hx) hp1 hp0 (hbounds _)
        hproducts Lift.yields_packed_halves rfl rfl (.word dst) hpsw
    | roundedWide => exact absurd rfl hshape

end Instruction

/-- Packed multiply-accumulate matches integer arithmetic. -/
theorem packed_products_match_integers {β : Type} [Bus β] (isa : Isa) (m : Machine β)
    {i : Instruction} {f : PackedForm} (hi : m.instruction? isa = some i)
    (hname : (i.mnemonic, f) ∈ PackedForm.named) :
    ∃ wide dst acc a b, ∃ h : HalfPair, ∃ n : Nat,
      i.operands = [.reg (.whole (f.shape ≠ .rounded) dst), .reg (.whole wide acc), .reg (.d a),
        .reg (.d b), .selector h.name, .imm n] ∧
      (f.shape ≠ .rounded → wide = true) ∧ n < 4 ∧ (m.step isa).2 = .done ∧
      let x := Operand.word m.core (.reg (.d a))
      let y := Operand.word m.core (.reg (.d b))
      f.Delivers m wide (m.core.read (.whole wide acc))
        (pinned 16 (halfNumber true x) (halfNumber h.upper y) n)
        (pinned 16 (halfNumber false x) (halfNumber h.lower y) n)
        (.whole (f.shape ≠ .rounded) dst) (m.step isa).1 := by
  obtain ⟨g, hg, hr, raw, addr, hos⟩ := Instruction.resolved hi
  obtain ⟨hformat, h, -, wide, -, ha, hkinds, hwide⟩ :=
    Opcode.packed_rows g hg i.row hr _ hname rfl
  obtain ⟨hop, hshape⟩ : f.upper ≠ .none ∧ f.shape ≠ .roundedWide := by
    have hall : ∀ p ∈ PackedForm.named, p.2.upper ≠ .none ∧ p.2.shape ≠ .roundedWide := by decide
    exact hall _ hname
  rw [hkinds, hformat] at hos
  obtain ⟨dst, acc, a, b, n, hops, hn⟩ : ∃ dst acc a b n, i.operands =
      [.reg (.whole (f.shape ≠ .rounded) dst), .reg (.whole wide acc), .reg (.d a), .reg (.d b),
        .selector h.name, .imm (n : Nat)] ∧ n < 4 := by
    generalize i.operands = os at hos
    obtain _ | ⟨hdst, _ | ⟨hacc, _ | ⟨⟨⟩, _ | ⟨⟨⟩, _ | ⟨⟨⟩, _ | ⟨⟨⟩, ⟨⟩⟩⟩⟩⟩⟩⟩ := hos
    obtain ⟨dst, rfl⟩ := OperandKind.eq_whole_of_resolve hdst
    obtain ⟨acc, rfl⟩ := OperandKind.eq_whole_of_resolve hacc
    exact ⟨dst, acc, _, _, _, rfl, Fields.n_lt_four (.inr rfl) raw⟩
  refine ⟨wide, dst, acc, a, b, h, n, hops, hwide, hn, ?_⟩
  refine Instruction.step_halfMultiply hi ha hop hshape hwide hn ?_
  rw [Lift.Source.of, hops]
  rfl

/-- `maddsurs.h d3, d0, d1, d2 ul, 1` with least half-words everywhere: the upper sum rounds to
zero, the lower one saturates. -/
theorem packed_products_match_integers_maddsurs :
    ((sameWords 0x80008000 [0xC3, 0x21, 0xB1, 0x30]).step .v16).2 = .done ∧
      ((sameWords 0x80008000 [0xC3, 0x21, 0xB1, 0x30]).step .v16).1.core.flag .v = true ∧
      ((sameWords 0x80008000 [0xC3, 0x21, 0xB1, 0x30]).step .v16).1.core.read (.d 3) = 0x8000 := by
  obtain ⟨i, hi, hname, hoperands⟩ :
      ∃ i, (sameWords 0x80008000 [0xC3, 0x21, 0xB1, 0x30]).instruction? .v16 = some i ∧
        (i.mnemonic, ⟨.add, .sub, .rounded, true⟩) ∈ PackedForm.named ∧
        i.operands = [.reg (.d 3), .reg (.d 0), .reg (.d 1), .reg (.d 2), .selector "ul", .imm 1] :=
    ⟨_, rfl, by decide +kernel, by decide +kernel⟩
  obtain ⟨wide, dst, acc, a, b, h, n, hops, -, -, hdone, hdelivers⟩ :=
    packed_products_match_integers .v16 (sameWords 0x80008000 [0xC3, 0x21, 0xB1, 0x30]) hi hname
  obtain ⟨rfl, rfl, rfl, rfl, rfl, rfl, rfl⟩ : wide = false ∧ dst = 3 ∧ acc = 0 ∧ a = 1 ∧ b = 2 ∧
      h = .ul ∧ n = 1 := by
    rw [hoperands] at hops
    cases wide <;> cases h <;> simp [HalfPair.name, Register.whole] at hops
    simp only [true_and]
    omega
  exact ⟨hdone, hdelivers.reports.v, hdelivers.result⟩

end Tricore
