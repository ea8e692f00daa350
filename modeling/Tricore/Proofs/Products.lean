import Mathlib
import Tricore.Memory.Window
import Tricore.Proofs.Idioms
import Tricore.Proofs.Successor

/-!
# Products of words

What word-sized products and multiply-accumulate leave behind. The statements work on a 64-bit
pattern (`step_multiply`, `step_multiplyAdd`); what it says about the exact number (`product?`)
depends on whether the number is one that 64-bit two's complement can hold. An accumulator with an
unsigned product is, since the product is bounded first. An unsigned product alone is not: from 2^63
on it is taken for a negative number, and saturates to zero (`unsigned_products_saturate`).
-/

namespace Tricore

/-! ## Exact results -/

namespace Operand

/-- An operand as a number, at its own width. -/
def number (s : Sign) (c : Core) (o : Operand) : Int :=
  if o.expr.width = .double then s.number (o.value c) else s.number (o.word c)

end Operand

/-- The number that a product, or an accumulator with a product added or subtracted, stands for. -/
def Instruction.product? (s : Sign) (i : Instruction) (c : Core) : Option Int :=
  match i.row.action, i.operands.map (·.number s c) with
  | .multiply _ _ _, [_, x, y] | .multiply _ _ _, [x, y] => some (x * y)
  | .multiplyAdd subtract _ _ _, [_, acc, x, y] =>
    some (if subtract then acc - x * y else acc + x * y)
  | _, _ => none

/-! ## Statements -/

theorem Core.read_write_d (c : Core) (n : Nat) (v : Value) :
    (c.write (.d n) v).read (.d n) = (v.setWidth 32).setWidth 64 := by
  simp [read, write, setD, Register.canonical, Vector.get_eq_getElem]

/-- What an instruction with a word-sized result leaves: the report on the exact number, of which
`low` is the low word, and the result. -/
structure Machine.Concludes {β : Type} (m : Machine β) (overflow : Bool) (low : Word) (dst : Nat)
    (result : Word) (m' : Machine β) : Prop where
  reports : m.Reports overflow (low.getLsbD 31 ^^ low.getLsbD 30) m'
  result : m'.core.read (.d dst) = result.setWidth 64

namespace Lift

variable {β : Type} [Bus β] {pc : Address} {s : Supply} {m m₁ : Machine β} {sign : Sign}
  {sat : Bool} {z : Value} {dst : Nat}

/-- What `setWord` makes of a 64-bit pattern. -/
def narrowed (sign : Sign) (sat : Bool) (z : Value) : Word :=
  if sat then .ofInt 32 (sign.clamp .word z.toInt) else z.setWidth 32

theorem runs_setWord {x : Expr} (hx : x.Yields m s.temps z) (hpsw : m.core.psw = m₁.core.psw) :
    (setWord (.d dst) sign sat x).Runs pc s m fun _ _ m' =>
      m₁.Concludes (decide (¬ sign.Fits .word z.toInt)) (z.setWidth 32) dst (narrowed sign sat z)
        m' := by
  have hlow : (Expr.low .word x).Yields m s.temps (z.setWidth 32) := hx.low rfl (by decide)
  have hresult : (if sat then x.saturate .word sign else .low .word x).Yields m s.temps
      (narrowed sign sat z) := by
    cases sat with
    | true => exact hx.saturate (by decide)
    | false => exact hlow
  refine .bind (.status (hx.overflow (by decide)) (hlow.advanced (by decide))
    fun m' hgrows hm => ?_)
  refine .set (hresult.mono hgrows le_rfl) ⟨?_, ?_⟩
  · have hflag (f : Flag) : m.core.flag f = m₁.core.flag f := by rw [Core.flag, Core.flag, hpsw]
    exact ⟨hm.v, hflag .sv ▸ hm.sv, hm.av, hflag .sav ▸ hm.sav⟩
  · rw [Machine.withCore, Core.read_write_d]
    simp

/-- The product that is accumulated, as an expression. -/
def bounded (sign : Sign) (product : Expr) : Expr :=
  match sign with
  | .signed => product
  | .unsigned =>
    .select .double (.compare .ugt .double product (.const .double 0xFFFFFFFF))
      (.const .double 0x100000000) product

/-- Write a 64-bit accumulator with a product added or subtracted. -/
def setWide (dst : Register) (subtract : Bool) (sign : Sign) (sat : Bool) (acc product : Expr) :
    Emit Unit :=
  match sign with
  | .signed => setAccumulated dst (if subtract then .sub else .add) sat acc product
  | .unsigned => setAccumulatedU dst subtract sat acc product

/-- The 64-bit product of two words. -/
def wideProduct (sign : Sign) (x y : Word) : Value := sign.widen 64 x * sign.widen 64 y

/-- The product that is accumulated: an unsigned one is bounded by 2^32. -/
def boundedProduct (sign : Sign) (x y : Word) : Value :=
  let product := wideProduct sign x y
  match sign with
  | .signed => product
  | .unsigned => if 0xFFFFFFFF < product.toNat then 0x100000000 else product

theorem yields_bounded {e : Expr} {n : Nat} {x y : Word}
    (he : e.Yields m n (wideProduct sign x y)) :
    (bounded sign e).Yields m n (boundedProduct sign x y) := by
  cases sign with
  | signed => exact he
  | unsigned =>
    have hdouble : Width.double.bits = 64 := rfl
    have h := Expr.Yields.select (he.ugt (.const_double 0xFFFFFFFF) hdouble)
      (.const_double 0x100000000) he hdouble
    simp only [decide_eq_true_eq] at h
    exact h

/-- The 64-bit sum of an accumulator and a product, or their difference. -/
def wideSum (subtract : Bool) (sign : Sign) (acc x y : Word) : Value :=
  if subtract then sign.widen 64 acc - boundedProduct sign x y
  else sign.widen 64 acc + boundedProduct sign x y

end Lift

open Lift (narrowed wideProduct boundedProduct wideSum)

namespace Instruction

variable {β : Type} [Bus β] {isa : Isa} {m : Machine β} {i : Instruction} {sign : Sign}
  {subtract sat : Bool} {dst : Nat} {acc x y : Operand}

/-- Three operands: a destination and two sources. -/
theorem binary_of_values {d : Register} (hops : i.operands = [.reg d, x, y])
    (hvalues : ∀ o ∈ i.operands, Role.value.takes o.shape = true) :
    (Lift.Source.of i).binary = .ok (d, x.expr, y.expr) := by
  have hx := hvalues x (by simp [hops])
  have hy := hvalues y (by simp [hops])
  have hsource := (operands_of_values hvalues).trans hops
  simp only [Lift.Source.binary, Lift.Source.arity, hsource, List.length_cons, List.length_nil,
    Lift.Source.reg_of 0 hsource rfl, Lift.Source.value_of 1 hsource rfl hx,
    Lift.Source.value_of 2 hsource rfl hy]
  rfl

/-- Two operands: the first is a source too. -/
theorem binary_of_pair {d : Register} (hops : i.operands = [.reg d, y])
    (hvalues : ∀ o ∈ i.operands, Role.value.takes o.shape = true) :
    (Lift.Source.of i).binary = .ok (d, .reg d, y.expr) := by
  have hd := hvalues (.reg d) (by simp [hops])
  have hy := hvalues y (by simp [hops])
  have hsource := (operands_of_values hvalues).trans hops
  simp only [Lift.Source.binary, Lift.Source.arity, hsource, List.length_cons, List.length_nil,
    Lift.Source.reg_of 0 hsource rfl, Lift.Source.value_of 0 hsource rfl hd,
    Lift.Source.value_of 1 hsource rfl hy]
  rfl

theorem plan_multiply {wide : Bool} {d : Register} (ha : i.row.action = .multiply sign wide sat)
    (hbinary : (Lift.Source.of i).binary = .ok (d, x.expr, y.expr)) :
    i.plan = Lift.emitting (do
      let product ← Lift.temp
        (.mul .double (.extend sign .double x.expr) (.extend sign .double y.expr))
      if wide then Lift.setProduct d product else Lift.setWord d sign sat product) := by
  rw [Instruction.plan, ha, Lift.plan, Lift.Plan.multiply, hbinary]
  rfl

theorem step_multiply (hi : m.instruction? isa = some i)
    (ha : i.row.action = .multiply sign false sat)
    (hbinary : (Lift.Source.of i).binary = .ok (.d dst, x.expr, y.expr)) (hx : x.IsWord)
    (hy : y.IsWord) :
    let z := wideProduct sign (x.word m.core) (y.word m.core)
    (m.step isa).2 = .done ∧ m.Concludes (decide (¬ sign.Fits .word z.toInt)) (z.setWidth 32) dst
      (narrowed sign sat z) (m.step isa).1 := by
  intro z
  refine Machine.step_of_runs hi (plan_multiply ha hbinary) fun s _ => ?_
  have hproduct : (Expr.mul .double (.extend sign .double x.expr)
      (.extend sign .double y.expr)).Yields (m.start i) s.temps z :=
    ((hx.yields m i _).extend rfl (by decide)).mul ((hy.yields m i _).extend rfl (by decide)) rfl
  exact .bind (.temp hproduct (by decide) fun m' e _ hpsw he => Lift.runs_setWord he hpsw)

theorem plan_multiplyAdd {wide : Bool} {d : Register}
    (ha : i.row.action = .multiplyAdd subtract sign wide sat)
    (hsource : (Lift.Source.of i).operands = [.reg d, acc, x, y])
    (hacc : Role.value.takes acc.shape = true) (hx : x.IsWord) (hy : y.IsWord) :
    i.plan = Lift.emitting (do
      let product ← Lift.temp
        (.mul .double (.extend sign .double x.expr) (.extend sign .double y.expr))
      if wide then
        let acc ← Lift.temp acc.expr
        Lift.setWide d subtract sign sat acc product
      else
        let sum ← Lift.temp (Lift.accumulated (if subtract then .sub else .add)
          (.extend sign .double acc.expr) (Lift.bounded sign product))
        Lift.setWord d sign sat sum) := by
  rw [Instruction.plan, ha, Lift.plan, Lift.Plan.multiplyAdd, Lift.Source.reg_of 0 hsource rfl,
    Lift.Source.value_of 1 hsource rfl hacc, Lift.Source.value_of 2 hsource rfl hx.takes,
    Lift.Source.value_of 3 hsource rfl hy.takes]
  rfl

theorem step_multiplyAdd (hi : m.instruction? isa = some i)
    (ha : i.row.action = .multiplyAdd subtract sign false sat)
    (hops : i.operands = [.reg (.d dst), acc, x, y]) (hwords : ∀ o ∈ i.operands, o.IsWord) :
    let z := wideSum subtract sign (acc.word m.core) (x.word m.core) (y.word m.core)
    (m.step isa).2 = .done ∧ m.Concludes (decide (¬ sign.Fits .word z.toInt)) (z.setWidth 32) dst
      (narrowed sign sat z) (m.step isa).1 := by
  intro z
  have hacc : acc.IsWord := hwords acc (by simp [hops])
  have hx : x.IsWord := hwords x (by simp [hops])
  have hy : y.IsWord := hwords y (by simp [hops])
  have hsource := (operands_of_values fun o ho => (hwords o ho).takes).trans hops
  refine Machine.step_of_runs hi (plan_multiplyAdd ha hsource hacc.takes hx hy) fun s _ => ?_
  have hproduct : (Expr.mul .double (.extend sign .double x.expr)
      (.extend sign .double y.expr)).Yields (m.start i) s.temps
        (wideProduct sign (x.word m.core) (y.word m.core)) :=
    ((hx.yields m i _).extend rfl (by decide)).mul ((hy.yields m i _).extend rfl (by decide)) rfl
  refine .bind (.temp hproduct (by decide) fun m₁ e hgrows hpsw he => ?_)
  have hacc₁ : (Expr.extend sign .double acc.expr).Yields m₁ (s.temps + 1)
      (sign.widen 64 (acc.word m.core)) :=
    ((hacc.yields m i _).extend rfl (by decide)).mono hgrows (Nat.le_succ _)
  have hsum : (Lift.accumulated (if subtract then .sub else .add)
      (.extend sign .double acc.expr) (Lift.bounded sign e)).Yields m₁ (s.temps + 1) z := by
    have hbounded := Lift.yields_bounded he
    cases subtract with
    | true => exact hacc₁.sub hbounded rfl
    | false => exact hacc₁.add hbounded rfl
  exact .bind (.temp hsum (by decide) fun m₂ e _ hpsw₂ he =>
    Lift.runs_setWord he (hpsw₂.trans hpsw))

end Instruction

/-! ## Unsigned words -/

theorem toNat_widen (x : Word) : (Sign.unsigned.widen 64 x).toNat = x.toNat :=
  BitVec.toNat_setWidth_of_le (by decide)

theorem product_lt (x y : Word) : x.toNat * y.toNat < 2 ^ 64 :=
  calc x.toNat * y.toNat < 2 ^ 32 * 2 ^ 32 := Nat.mul_lt_mul'' x.isLt y.isLt
    _ = 2 ^ 64 := by decide

theorem toNat_wideProduct (x y : Word) :
    (wideProduct .unsigned x y).toNat = x.toNat * y.toNat := by
  rw [wideProduct, BitVec.toNat_mul, toNat_widen, toNat_widen, Nat.mod_eq_of_lt (product_lt x y)]

/-- From 2^63 on the product is taken for a negative number. -/
theorem toInt_wideProduct (x y : Word) :
    (wideProduct .unsigned x y).toInt =
      if x.toNat * y.toNat < 2 ^ 63 then (x.toNat * y.toNat : Int)
      else x.toNat * y.toNat - 2 ^ 64 := by
  rw [BitVec.toInt_eq_toNat_cond, toNat_wideProduct]
  push_cast
  split <;> split <;> omega

/-- The bound keeps the sum in range. -/
theorem toInt_wideSum (subtract : Bool) (acc x y : Word) :
    (wideSum subtract .unsigned acc x y).toInt =
      if subtract then acc.toNat - min (x.toNat * y.toNat : Int) (2 ^ 32)
      else acc.toNat + min (x.toNat * y.toNat : Int) (2 ^ 32) := by
  have hacc := acc.isLt
  have hbounded : (boundedProduct .unsigned x y).toNat = min (x.toNat * y.toNat) (2 ^ 32) := by
    simp only [boundedProduct, toNat_wideProduct]
    split
    · next h => rw [Nat.min_eq_right (by omega)]; rfl
    · next h => rw [toNat_wideProduct, Nat.min_eq_left (by omega)]
  have hmin : min (x.toNat * y.toNat : Int) (2 ^ 32) =
      (min (x.toNat * y.toNat) (2 ^ 32) : Nat) := by
    push_cast
    rfl
  have hle : min (x.toNat * y.toNat) (2 ^ 32) ≤ 2 ^ 32 := Nat.min_le_right _ _
  rw [hmin, ← hbounded, BitVec.toInt_eq_toNat_cond, wideSum]
  rw [← hbounded] at hle
  cases subtract with
  | true =>
    simp only [if_true, BitVec.toNat_sub, toNat_widen]
    split <;> omega
  | false =>
    simp only [Bool.false_eq_true, if_false, BitVec.toNat_add, toNat_widen]
    split <;> omega

theorem Sign.clamp_unsigned_word (z : Int) :
    Sign.unsigned.clamp .word z = max 0 (min z (2 ^ 32 - 1)) := rfl

theorem Sign.fits_unsigned_word (z : Int) :
    Sign.unsigned.Fits .word z ↔ 0 ≤ z ∧ z < 2 ^ 32 := by
  rw [Sign.Fits, Sign.limits_unsigned]
  simp only [Width.bits, Width.bytes]
  omega

/-- A saturated word is the number it was clamped to. -/
theorem toNat_narrowed (z : Value) :
    (((narrowed .unsigned true z).setWidth 64).toNat : Int) = max 0 (min z.toInt (2 ^ 32 - 1)) := by
  rw [narrowed, if_pos rfl, Sign.clamp_unsigned_word, BitVec.toNat_setWidth_of_le (by decide),
    BitVec.toNat_ofInt]
  omega

theorem Operand.IsSingle.number {o : Operand} (h : o.IsSingle) (s : Sign) (c : Core) :
    o.number s c = s.number (o.word c) := by
  unfold Operand.number
  cases o with
  | reg r =>
    cases r with
    | d | a => rfl
    | _ => simp [IsSingle, shape, Register.shape] at h
  | imm | high => rfl
  | _ => simp [IsSingle, shape] at h

theorem Operand.IsWord.number {o : Operand} (h : o.IsWord) (s : Sign) (c : Core) :
    o.number s c = s.number (o.word c) := h.isSingle.number s c

/-! ## Saturation -/

namespace Instruction

variable {β : Type} [Bus β] {isa : Isa} {m : Machine β} {i : Instruction} {subtract : Bool}
  {dst : Nat} {acc x y : Operand}

omit [Bus β] in
/-- What a saturated result tells about the 64-bit number it comes from. -/
theorem saturated_of_concludes {z : Value} {low : Word} {m' : Machine β}
    (h : m.Concludes (decide (¬ Sign.unsigned.Fits .word z.toInt)) low dst
      (narrowed .unsigned true z) m') :
    (m'.core.flag .v = true ↔ z.toInt < 0 ∨ 2 ^ 32 ≤ z.toInt) ∧
      ((m'.core.read (.d dst)).toNat : Int) = max 0 (min z.toInt (2 ^ 32 - 1)) := by
  constructor
  · rw [h.reports.v, decide_eq_true_eq, Sign.fits_unsigned_word]
    omega
  · rw [h.result, toNat_narrowed]

theorem step_saturating_product (hi : m.instruction? isa = some i)
    (ha : i.row.action = .multiply .unsigned false true)
    (hops : i.operands = [.reg (.d dst), x, y]) (hwords : ∀ o ∈ i.operands, o.IsWord) :
    ∃ exact, i.product? .unsigned m.core = some exact ∧ (m.step isa).2 = .done ∧
      ((m.step isa).1.core.flag .v = true ↔ exact < 0 ∨ 2 ^ 32 ≤ exact) ∧
      (((m.step isa).1.core.read (.d dst)).toNat : Int) =
        if 2 ^ 63 ≤ exact then 0 else max 0 (min exact (2 ^ 32 - 1)) := by
  have hx := (hwords x (by simp [hops])).number .unsigned m.core
  have hy := (hwords y (by simp [hops])).number .unsigned m.core
  obtain ⟨hdone, hconcludes⟩ := step_multiply hi ha
    (binary_of_values hops fun o ho => (hwords o ho).takes) (hwords x (by simp [hops]))
    (hwords y (by simp [hops]))
  obtain ⟨hv, hresult⟩ := saturated_of_concludes hconcludes
  have hlt : ((x.word m.core).toNat * (y.word m.core).toNat : Int) < 2 ^ 64 := by
    exact_mod_cast product_lt (x.word m.core) (y.word m.core)
  have hpos : 0 ≤ ((x.word m.core).toNat * (y.word m.core).toNat : Int) := by positivity
  refine ⟨(x.word m.core).toNat * (y.word m.core).toNat, ?_, hdone, ?_, ?_⟩
  · simp only [product?, ha, hops, List.map_cons, List.map_nil, hx, hy, Sign.number]
  · rw [hv, toInt_wideProduct]
    split_ifs <;> omega
  · rw [hresult, toInt_wideProduct]
    simp only [max_def, min_def]
    split_ifs <;> omega

theorem step_saturating_sum (hi : m.instruction? isa = some i)
    (ha : i.row.action = .multiplyAdd subtract .unsigned false true)
    (hops : i.operands = [.reg (.d dst), acc, x, y]) (hwords : ∀ o ∈ i.operands, o.IsWord) :
    ∃ exact, i.product? .unsigned m.core = some exact ∧ (m.step isa).2 = .done ∧
      ((m.step isa).1.core.flag .v = true ↔ exact < 0 ∨ 2 ^ 32 ≤ exact) ∧
      (((m.step isa).1.core.read (.d dst)).toNat : Int) = max 0 (min exact (2 ^ 32 - 1)) := by
  have hacc := (hwords acc (by simp [hops])).number .unsigned m.core
  have hx := (hwords x (by simp [hops])).number .unsigned m.core
  have hy := (hwords y (by simp [hops])).number .unsigned m.core
  obtain ⟨hdone, hconcludes⟩ := step_multiplyAdd hi ha hops hwords
  obtain ⟨hv, hresult⟩ := saturated_of_concludes hconcludes
  have hexact : i.product? .unsigned m.core =
      some (if subtract then
          ((acc.word m.core).toNat - (x.word m.core).toNat * (y.word m.core).toNat : Int)
        else (acc.word m.core).toNat + (x.word m.core).toNat * (y.word m.core).toNat) := by
    simp only [product?, ha, hops, List.map_cons, List.map_nil, hacc, hx, hy, Sign.number]
  have hlt := (acc.word m.core).isLt
  have hpos : 0 ≤ ((x.word m.core).toNat * (y.word m.core).toNat : Int) := by positivity
  refine ⟨_, hexact, hdone, ?_, ?_⟩
  -- With the product bounded, the sum leaves the range on the same side as the exact one.
  · rw [hv, toInt_wideSum]
    simp only [min_def]
    split_ifs <;> omega
  · rw [hresult, toInt_wideSum]
    simp only [max_def, min_def]
    split_ifs <;> omega

end Instruction

/-- The rows of unsigned saturating products with a data register as the destination. -/
theorem Opcode.unsigned_saturating_rows : ∀ g ∈ table, ∀ r ∈ g.rows,
    r.mnemonic ∈ ["muls.u", "madds.u", "msubs.u"] → (r.operands.map (·.shape)).head? = some .data →
      (∀ k ∈ r.operands, k.shape = .data ∨ k.shape = .imm) ∧
        (r.mnemonic = "muls.u" ∧ r.action = .multiply .unsigned false true ∧
            r.operands.length = 3 ∨
          r.mnemonic ≠ "muls.u" ∧ r.operands.length = 4 ∧
            (r.action = .multiplyAdd false .unsigned false true ∨
              r.action = .multiplyAdd true .unsigned false true)) := by decide +kernel

/-- Unsigned saturating products and multiply-accumulate report overflow exactly if the exact number
is no unsigned word, and leave the nearest unsigned word; but a product of 2^63 or more without an
accumulator leaves zero. -/
theorem unsigned_products_saturate {β : Type} [Bus β] (isa : Isa) (m : Machine β) {i : Instruction}
    {dst : Nat} (hi : m.instruction? isa = some i)
    (hname : i.mnemonic ∈ ["muls.u", "madds.u", "msubs.u"])
    (hdst : i.operands.head? = some (.reg (.d dst))) :
    ∃ exact, i.product? .unsigned m.core = some exact ∧ (m.step isa).2 = .done ∧
      ((m.step isa).1.core.flag .v = true ↔ exact < 0 ∨ 2 ^ 32 ≤ exact) ∧
      (((m.step isa).1.core.read (.d dst)).toNat : Int) =
        if i.mnemonic = "muls.u" ∧ 2 ^ 63 ≤ exact then 0 else max 0 (min exact (2 ^ 32 - 1)) := by
  obtain ⟨bytes, -, hd⟩ := Machine.instruction?_eq_some.1 hi
  obtain ⟨e, -, -, -, g, hg, hr, hos⟩ := Instruction.of_decode hd
  have hshapes := (Instruction.shapes_of_mapM hos).1
  have hhead : (i.row.operands.map (·.shape)).head? = some .data := by
    rw [← hshapes, List.head?_map, hdst]
    rfl
  obtain ⟨hkinds, hrow⟩ := Opcode.unsigned_saturating_rows g hg i.row hr hname hhead
  have hwords : ∀ o ∈ i.operands, o.IsWord := by
    intro o ho
    have hmem : o.shape ∈ i.row.operands.map (·.shape) := hshapes ▸ List.mem_map_of_mem ho
    obtain ⟨k, hk, hshape⟩ := List.mem_map.1 hmem
    rw [Operand.IsWord, ← hshape]
    exact hkinds k hk
  have hlength : i.operands.length = i.row.operands.length := by
    simpa using congrArg List.length hshapes
  rcases hrow with ⟨hmuls, haction, harity⟩ | ⟨hmac, harity, haction⟩
  · obtain ⟨o, x, y, hops⟩ := List.length_eq_three.1 (hlength.trans harity)
    obtain rfl : o = .reg (.d dst) := by simpa [hops] using hdst
    obtain ⟨exact, hexact, hdone, hv, hresult⟩ :=
      Instruction.step_saturating_product hi haction hops hwords
    refine ⟨exact, hexact, hdone, hv, ?_⟩
    rw [hresult]
    simp only [Instruction.mnemonic, hmuls, true_and]
  · obtain ⟨o, acc, x, y, hops⟩ := List.length_eq_four.1 (hlength.trans harity)
    obtain rfl : o = .reg (.d dst) := by simpa [hops] using hdst
    obtain ⟨subtract, haction⟩ :
        ∃ subtract, i.row.action = .multiplyAdd subtract .unsigned false true := by
      rcases haction with h | h <;> exact ⟨_, h⟩
    obtain ⟨exact, hexact, hdone, hv, hresult⟩ :=
      Instruction.step_saturating_sum hi haction hops hwords
    refine ⟨exact, hexact, hdone, hv, ?_⟩
    rw [hresult]
    simp only [Instruction.mnemonic, hmac, false_and, if_false]

/-- One instruction to execute, where every data register holds the largest word. -/
def largestWords (bytes : List Byte) : Machine Window where
  core := { d := .replicate 16 0xFFFFFFFF }
  bus := { base := 0, size := 4, bytes := .putAll .empty 0 bytes }

/-- `madds.u d3, d0, d1, d2` saturates at the largest word. -/
theorem unsigned_products_saturate_madds :
    ((largestWords [0x03, 0x21, 0x88, 0x30]).step .v16).2 = .done ∧
      ((largestWords [0x03, 0x21, 0x88, 0x30]).step .v16).1.core.flag .v = true ∧
      ((((largestWords [0x03, 0x21, 0x88, 0x30]).step .v16).1.core.read (.d 3)).toNat : Int) =
        2 ^ 32 - 1 := by
  obtain ⟨i, hi, hname, hdst, hproduct⟩ :
      ∃ i, (largestWords [0x03, 0x21, 0x88, 0x30]).instruction? .v16 = some i ∧
        i.mnemonic = "madds.u" ∧ i.operands.head? = some (.reg (.d 3)) ∧
        i.product? .unsigned (largestWords [0x03, 0x21, 0x88, 0x30]).core =
          some ((2 ^ 32 - 1) + (2 ^ 32 - 1) * (2 ^ 32 - 1)) :=
    ⟨_, rfl, by decide +kernel, by decide +kernel, by decide +kernel⟩
  obtain ⟨exact, hexact, hdone, hv, hresult⟩ :=
    unsigned_products_saturate .v16 (largestWords [0x03, 0x21, 0x88, 0x30]) hi (by simp [hname])
      hdst
  obtain rfl := Option.some.inj (hproduct.symm.trans hexact)
  refine ⟨hdone, hv.2 (by decide), hresult.trans ?_⟩
  rw [hname]
  decide

/-- `muls.u d3, d1, d2` leaves zero, where the product is the largest there is. -/
theorem unsigned_product_saturates_to_zero :
    ∃ i, (largestWords [0x73, 0x21, 0x88, 0x30]).instruction? .v16 = some i ∧
      i.mnemonic = "muls.u" ∧
      i.product? .unsigned (largestWords [0x73, 0x21, 0x88, 0x30]).core =
        some ((2 ^ 32 - 1) * (2 ^ 32 - 1)) ∧
      ((largestWords [0x73, 0x21, 0x88, 0x30]).step .v16).2 = .done ∧
      ((largestWords [0x73, 0x21, 0x88, 0x30]).step .v16).1.core.flag .v = true ∧
      ((largestWords [0x73, 0x21, 0x88, 0x30]).step .v16).1.core.read (.d 3) = 0 :=
  ⟨_, rfl, by decide +kernel, by decide +kernel, by decide +kernel, by decide +kernel,
    by decide +kernel⟩

end Tricore
