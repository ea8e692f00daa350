import Mathlib
import Tricore.Proofs.Accumulation

/-!
# Sums and differences

`SumForm` is what the instructions that add or subtract two words have in common: which way round
they subtract, how they read their operands, and whether they saturate. Each computes the integer
that `SumForm.result?` gives, reports on it and keeps as much of it as a word takes; an address
register takes the low word and nothing is reported (`sums_match_integers`).
-/

namespace Tricore

/-! ## Forms -/

/-- What an addition or subtraction of words does. -/
structure SumForm where
  subtract : Bool
  /-- The second source is the minuend. -/
  reversed : Bool
  sign : Sign
  saturates : Bool
  deriving DecidableEq

/-- The additions and subtractions. -/
def Action.sum? : Action → Option SumForm
  | .add => some ⟨false, false, .signed, false⟩
  | .addSat s => some ⟨false, false, s, true⟩
  | .sub => some ⟨true, false, .signed, false⟩
  | .subSat s => some ⟨true, false, s, true⟩
  | .rsub => some ⟨true, true, .signed, false⟩
  | .rsubSat s => some ⟨true, true, s, true⟩
  | _ => none

namespace SumForm

/-- The sum or difference of two numbers. -/
def sum (f : SumForm) (x y : Int) : Int := if f.subtract then x - y else x + y

/-- The exact result, from all operands as numbers. The first is the destination, and a source too
if there are no two others; a single operand is subtracted from zero. -/
def result? (f : SumForm) (numbers : List Int) : Option Int :=
  match f.reversed, numbers with
  | false, [x, y] | false, [_, x, y] => some (f.sum x y)
  | true, [_, x, y] => some (f.sum y x)
  | true, [x] => some (f.sum 0 x)
  | _, _ => none

def op (f : SumForm) : BinOp := if f.subtract then .sub else .add

/-- What is emitted, with the operands read. -/
def emit (f : SumForm) (dst : Register) (x y : Expr) : Lift.Emit Unit :=
  if dst.isAddress then Lift.set dst (.binary f.op .word x y)
  else if f.saturates then Lift.clamped f.sign dst f.op x y
  else Lift.wrapping dst f.op x y

end SumForm

/-- The rows of these instructions. Only plain ones have an address register for a destination. -/
theorem Opcode.sum_rows : ∀ g ∈ table, ∀ r ∈ g.rows, ∀ f ∈ r.action.sum?,
    ∃ dst ∈ [Shape.data, .address], ∃ source ∈ [Shape.data, .address, .imm, .high],
      (dst = .address → f.reversed = false ∧ f.saturates = false) ∧
        (f.saturates = false → f.sign = .signed) ∧
        (r.operands.map (·.shape) = [dst, dst, source] ∨
          f.reversed = false ∧ r.operands.map (·.shape) = [dst, source] ∨
          f.reversed = true ∧ r.operands.map (·.shape) = [dst]) := by
  decide +kernel

/-! ## Results -/

theorem Sign.abs_number_le (s : Sign) (x : Word) : |s.number x| ≤ 2 ^ 32 := by
  cases s with
  | signed => exact (abs_toInt_le x).trans (by decide)
  | unsigned =>
    have hlt : (x.toNat : Int) < 2 ^ 32 := by exact_mod_cast x.isLt
    rw [number, abs_of_nonneg (Int.natCast_nonneg _)]
    exact hlt.le

theorem Core.read_write_a (c : Core) (n : Nat) (v : Value) :
    (c.write (.a n) v).read (.a n) = (v.setWidth 32).setWidth 64 := by
  simp [read, write, setA, Register.canonical, Vector.get_eq_getElem]

namespace SumForm

variable {β : Type} [Bus β] {pc : Address} {s : Lift.Supply} {m m₁ : Machine β} {f : SumForm}
  {a b : Expr} {x y : Word}

/-- Sums of words stay far below 64 bits. -/
theorem fits_sum (f : SumForm) (x y : Word) :
    Sign.signed.Fits .double (f.sum (f.sign.number x) (f.sign.number y)) := by
  have hx := f.sign.abs_number_le x
  have hy := f.sign.abs_number_le y
  refine fits_of_abs_lt (abs_lt.2 ?_)
  rw [abs_le] at hx hy
  unfold sum
  split_ifs <;> omega

theorem carries_sum {n : Nat} (ha : a.Yields m n x) (hb : b.Yields m n y) (f : SumForm)
    (sign : Sign) :
    (Expr.binary f.op .double (.extend sign .double a) (.extend sign .double b)).Carries m n
      (f.sum (sign.number x) (sign.number y)) := by
  have ha' := Expr.Carries.extend sign ha
  have hb' := Expr.Carries.extend sign hb
  unfold op sum
  split_ifs
  · exact ha'.sub hb'
  · exact ha'.add hb'

/-- A data register takes what is stored of the exact result. -/
theorem runs_emit_data {dst : Nat} (hsign : f.saturates = false → f.sign = .signed)
    (ha : a.Yields m s.temps x) (hb : b.Yields m s.temps y) (hpsw : m.core.psw = m₁.core.psw) :
    let exact := f.sum (f.sign.number x) (f.sign.number y)
    (f.emit (.d dst) a b).Runs pc s m fun _ _ m' =>
      m₁.Delivers f.sign .word [exact] (.d dst) (f.sign.stored .word f.saturates exact) m' := by
  intro exact
  have hfits : Sign.signed.Fits .double exact := f.fits_sum x y
  cases hsat : f.saturates with
  | true =>
    simp only [emit, Register.isAddress, hsat, if_true, Bool.false_eq_true, if_false]
    refine .bind (.temp (carries_sum ha hb f f.sign) (by decide) fun m₂ e _ hpsw₂ he => ?_)
    have he : e.Carries m₂ (s.temps + 1) exact := he
    have hstored : (e.saturate .word f.sign).Yields m₂ (s.temps + 1)
        (f.sign.stored .word true exact) := he.saturate_word hfits
    refine Lift.runs_deliver ?_ ?_ hstored (.word dst) (hpsw₂.trans hpsw)
    · simpa only [List.any_cons, List.any_nil, Bool.or_false] using he.overflow hfits
    · simpa only [List.any_cons, List.any_nil, Bool.or_false] using he.advanced_low
  | false =>
    have hexact : f.sum (Sign.signed.number x) (Sign.signed.number y) = exact := by
      simp only [exact, hsign hsat]
    have hwide := carries_sum ha hb f .signed
    rw [hexact] at hwide
    rw [hsign hsat]
    simp only [emit, Register.isAddress, hsat, Bool.false_eq_true, if_false]
    refine .bind (.temp hwide (by decide) fun m₂ e _ hpsw₂ he => ?_)
    have he : e.Carries m₂ (s.temps + 1) exact := he
    have hstored : (Expr.low .word e).Yields m₂ (s.temps + 1)
        (Sign.signed.stored .word false exact) := he.low_word
    refine .bind (.temp hstored (by decide) fun m₃ result hgrows hpsw₃ hresult => ?_)
    have he₃ : e.Carries m₃ (s.temps + 1 + 1) exact := he.mono hgrows (Nat.le_succ _)
    have hadvanced : result.advanced.Decides m₃ (s.temps + 1 + 1) (Width.word.advances exact) :=
      hresult.advanced (by decide)
    refine Lift.runs_deliver ?_ ?_ hresult (.word dst) ((hpsw₃.trans hpsw₂).trans hpsw)
    · simpa only [List.any_cons, List.any_nil, Bool.or_false] using he₃.overflow hfits
    · simpa only [List.any_cons, List.any_nil, Bool.or_false] using hadvanced

/-- An address register takes the low word, and the status word stays. -/
theorem runs_emit_address {dst : Nat} (hsign : f.sign = .signed) (ha : a.Yields m s.temps x)
    (hb : b.Yields m s.temps y) :
    (f.emit (.a dst) a b).Runs pc s m fun _ _ m' =>
      m'.core.read (.a dst) =
          (BitVec.ofInt 32 (f.sum (f.sign.number x) (f.sign.number y))).setWidth 64 ∧
        m'.core.psw = m.core.psw := by
  have hsum : (Expr.binary f.op .word a b).Yields m s.temps
      (BitVec.ofInt 32 (f.sum (f.sign.number x) (f.sign.number y))) := by
    rw [hsign]
    unfold op sum
    split_ifs
    · rw [ofInt_sub, Sign.number, Sign.number, BitVec.ofInt_toInt, BitVec.ofInt_toInt]
      exact ha.sub hb rfl
    · rw [BitVec.ofInt_add, Sign.number, Sign.number, BitVec.ofInt_toInt, BitVec.ofInt_toInt]
      exact ha.add hb rfl
  refine .set hsum ⟨?_, rfl⟩
  rw [Machine.withCore, Core.read_write_a]
  simp

end SumForm

/-! ## Operands -/

/-- A single register, as an operand. -/
theorem Operand.exists_register {o : Operand} (h : o.shape ∈ [Shape.data, .address]) :
    ∃ r, o = .reg r ∧ o.IsSingle := by
  have htakes : ∀ shape ∈ [Shape.data, .address], Role.register.takes shape = true ∧
      shape ∈ [Shape.data, .address, .imm, .high] := by decide
  obtain ⟨r, hr, -⟩ := Role.takes_register.1 (htakes _ h).1
  exact ⟨r, hr, (htakes _ h).2⟩

/-- The destination and the two terms in their order, as they are read. -/
def SumForm.read (f : SumForm) (s : Lift.Source) : Lift.Read (Register × Expr × Expr) :=
  if f.reversed then Lift.Plan.reversed s else s.binary

namespace Instruction

variable {i : Instruction} {f : SumForm} {dst : Register} {x y : Expr}

theorem plan_sum (hform : i.row.action.sum? = some f)
    (hread : f.read (Lift.Source.of i) = .ok (dst, x, y))
    (hdst : dst.shape = .address → f.reversed = false ∧ f.saturates = false) :
    i.plan = Lift.emitting (f.emit dst x y) := by
  have hdata (h : ¬ (f.reversed = false ∧ f.saturates = false)) : dst.isAddress = false :=
    Bool.eq_false_iff.2 fun haddress => h (hdst (Lift.isAddress_iff.1 haddress))
  unfold Action.sum? at hform
  unfold Instruction.plan
  split at hform <;> cases hform <;> rename_i ha <;> rw [ha, Lift.plan]
  case h_1 | h_3 =>
    rw [Lift.Plan.addSub, show (Lift.Source.of i).binary = _ from hread]
    rfl
  case h_2 | h_4 =>
    rw [Lift.Plan.addSubSat, show (Lift.Source.of i).binary = _ from hread, SumForm.emit,
      hdata (by simp)]
    rfl
  case h_5 =>
    rw [Lift.Plan.rsub, show Lift.Plan.reversed (Lift.Source.of i) = _ from hread, SumForm.emit,
      hdata (by simp)]
    rfl
  case h_6 =>
    rw [Lift.Plan.rsubSat, show Lift.Plan.reversed (Lift.Source.of i) = _ from hread, SumForm.emit,
      hdata (by simp)]
    rfl

/-- Three operands of a reverse subtraction, -/
theorem reversed_of_values {a b : Operand} (hops : i.operands = [.reg dst, a, b])
    (hvalues : ∀ o ∈ i.operands, Role.value.takes o.shape = true) :
    Lift.Plan.reversed (Lift.Source.of i) = .ok (dst, b.expr, a.expr) := by
  have ha := hvalues a (by simp [hops])
  have hb := hvalues b (by simp [hops])
  have hsource := (operands_of_values hvalues).trans hops
  simp only [Lift.Plan.reversed, Lift.Source.arity, hsource, List.length_cons, List.length_nil,
    Lift.Source.reg_of 0 hsource rfl, Lift.Source.value_of 1 hsource rfl ha,
    Lift.Source.value_of 2 hsource rfl hb]
  rfl

/-- and a single one. -/
theorem reversed_of_register (hops : i.operands = [.reg dst])
    (hvalues : ∀ o ∈ i.operands, Role.value.takes o.shape = true) :
    Lift.Plan.reversed (Lift.Source.of i) = .ok (dst, (Operand.imm 0).expr, .reg dst) := by
  have hd := hvalues (.reg dst) (by simp [hops])
  have hsource := (operands_of_values hvalues).trans hops
  simp only [Lift.Plan.reversed, Lift.Source.arity, hsource, List.length_cons, List.length_nil,
    Lift.Source.reg_of 0 hsource rfl, Lift.Source.value_of 0 hsource rfl hd]
  rfl

/-- The terms of a sum: the two sources, one of them the destination too if there is only one
other; a single operand is subtracted from zero. -/
theorem operands_of_sum {d source : Shape} (hd : d ∈ [Shape.data, .address])
    (hsource : source ∈ [Shape.data, .address, .imm, .high])
    (h : i.operands.map (·.shape) = [d, d, source] ∨
      f.reversed = false ∧ i.operands.map (·.shape) = [d, source] ∨
      f.reversed = true ∧ i.operands.map (·.shape) = [d]) :
    ∃ (dst : Register) (x y : Operand), i.operands.head? = some (.reg dst) ∧ dst.shape = d ∧
      x.IsSingle ∧ y.IsSingle ∧ f.read (Lift.Source.of i) = .ok (dst, x.expr, y.expr) ∧
      ∀ c, f.result? (i.operands.map (·.number f.sign c)) =
        some (f.sum (x.number f.sign c) (y.number f.sign c)) := by
  simp only [List.map_eq_cons_iff, List.map_eq_nil_iff] at h
  rcases h with ⟨o, _, hops, ho, a, _, rfl, ha, b, _, rfl, hb, rfl⟩ |
    ⟨hreversed, o, _, hops, ho, b, _, rfl, hb, rfl⟩ | ⟨hreversed, o, _, hops, ho, rfl⟩
  all_goals
    obtain ⟨dst, rfl, hdst⟩ := Operand.exists_register (o := o) (ho ▸ hd)
    have hhead : i.operands.head? = some (.reg dst) := by rw [hops]; rfl
  · obtain ⟨-, -, hx⟩ := Operand.exists_register (o := a) (ha ▸ hd)
    have hy : b.IsSingle := by rwa [Operand.IsSingle, hb]
    have hvalues : ∀ o ∈ i.operands, Role.value.takes o.shape = true := by
      simp only [hops, List.forall_mem_cons]
      exact ⟨hdst.takes, hx.takes, hy.takes, by simp⟩
    cases hreversed : f.reversed with
    | false =>
      refine ⟨dst, a, b, hhead, ho, hx, hy, ?_, fun c => ?_⟩
      · rw [SumForm.read, hreversed]
        exact binary_of_values hops hvalues
      · simp only [SumForm.result?, hreversed, hops, List.map_cons, List.map_nil]
    | true =>
      refine ⟨dst, b, a, hhead, ho, hy, hx, ?_, fun c => ?_⟩
      · rw [SumForm.read, hreversed]
        exact reversed_of_values hops hvalues
      · simp only [SumForm.result?, hreversed, hops, List.map_cons, List.map_nil]
  · have hy : b.IsSingle := by rwa [Operand.IsSingle, hb]
    refine ⟨dst, _, b, hhead, ho, hdst, hy, ?_, fun c => ?_⟩
    · rw [SumForm.read, hreversed]
      refine binary_of_pair hops ?_
      simp only [hops, List.forall_mem_cons]
      exact ⟨hdst.takes, hy.takes, by simp⟩
    · simp only [SumForm.result?, hreversed, hops, List.map_cons, List.map_nil]
  · have hzeroSingle : Shape.imm ∈ [Shape.data, .address, .imm, .high] := by decide
    refine ⟨dst, .imm 0, _, hhead, ho, hzeroSingle, hdst, ?_, fun c => ?_⟩
    · rw [SumForm.read, hreversed]
      refine reversed_of_register hops ?_
      simp only [hops, List.forall_mem_cons]
      exact ⟨hdst.takes, by simp⟩
    · have hzero : Operand.number f.sign c (.imm 0) = 0 := by cases f.sign <;> rfl
      simp only [SumForm.result?, hreversed, hops, List.map_cons, List.map_nil, hzero]

end Instruction

/-! ## All forms -/

/-- Additions and subtractions match integer arithmetic. -/
theorem sums_match_integers {β : Type} [Bus β] (isa : Isa) (m : Machine β) {i : Instruction}
    {f : SumForm} (hi : m.instruction? isa = some i) (hform : i.row.action.sum? = some f) :
    ∃ dst exact, i.operands.head? = some (.reg dst) ∧
      f.result? (i.operands.map (·.number f.sign m.core)) = some exact ∧ (m.step isa).2 = .done ∧
      if dst.isAddress then
        (m.step isa).1.core.read dst = (BitVec.ofInt 32 exact).setWidth 64 ∧
          (m.step isa).1.core.psw = m.core.psw
      else
        m.Delivers f.sign .word [exact] dst (f.sign.stored .word f.saturates exact)
          (m.step isa).1 := by
  obtain ⟨g, hg, hr, raw, addr, hos⟩ := Instruction.resolved hi
  obtain ⟨d, hd, source, hsource, haddress, hsign, hshapes⟩ :=
    Opcode.sum_rows g hg i.row hr f hform
  rw [← Instruction.shapes_of_resolved hos] at hshapes
  obtain ⟨dst, x, y, hhead, rfl, hx, hy, hread, hresult⟩ :=
    Instruction.operands_of_sum hd hsource hshapes
  have hplan := Instruction.plan_sum hform hread haddress
  refine ⟨dst, _, hhead, hresult m.core, ?_⟩
  rw [hx.number, hy.number]
  cases dst with
  | d k =>
    exact Machine.step_of_runs hi hplan fun s _ =>
      SumForm.runs_emit_data hsign (hx.yields m i _) (hy.yields m i _) rfl
  | a k =>
    exact Machine.step_of_runs hi hplan fun s _ =>
      SumForm.runs_emit_address (hsign (haddress rfl).2) (hx.yields m i _) (hy.yields m i _)
  | _ => simp [Register.shape] at hd

/-- `adds.u d3, d1, -1` takes the constant for the largest word, and saturates at it. -/
theorem sums_match_integers_adds :
    ((sameWords 1 [0x8B, 0xF1, 0x7F, 0x30]).step .v16).2 = .done ∧
      ((sameWords 1 [0x8B, 0xF1, 0x7F, 0x30]).step .v16).1.core.flag .v = true ∧
      ((sameWords 1 [0x8B, 0xF1, 0x7F, 0x30]).step .v16).1.core.read (.d 3) = 0xFFFFFFFF := by
  obtain ⟨i, hi, hform, hhead, hresult⟩ :
      ∃ i, (sameWords 1 [0x8B, 0xF1, 0x7F, 0x30]).instruction? .v16 = some i ∧
        i.row.action.sum? = some ⟨false, false, .unsigned, true⟩ ∧
        i.operands.head? = some (.reg (.d 3)) ∧
        SumForm.result? ⟨false, false, .unsigned, true⟩ (i.operands.map
          (·.number .unsigned (sameWords 1 [0x8B, 0xF1, 0x7F, 0x30]).core)) = some (2 ^ 32) :=
    ⟨_, rfl, by decide +kernel, by decide +kernel, by decide +kernel⟩
  obtain ⟨dst, exact, hdst, hexact, hdone, hdelivers⟩ :=
    sums_match_integers .v16 (sameWords 1 [0x8B, 0xF1, 0x7F, 0x30]) hi hform
  obtain rfl := Option.some.inj (hresult.symm.trans hexact)
  obtain rfl : dst = .d 3 := by simpa [hhead, eq_comm] using hdst
  exact ⟨hdone, hdelivers.reports.v, hdelivers.result⟩

end Tricore
