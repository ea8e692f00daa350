import Mathlib
import Tricore.Proofs.Accumulation

/-!
# Conditional sums

`cadd`, `csub` and their negated forms add or subtract two words if a register is not zero, or if it
is. If the condition fails, the destination takes the left source, and overflow and advanced
overflow stay what they were. Their sticky copies are written all the same, so a copy that does not
have its flag yet takes it over (`Machine.Skips`): the status word stays as it was only if both
copies are up to date (`untaken_sums_keep_source`).
-/

namespace Tricore

/-! ## Forms -/

/-- What the name of a conditional sum stands for. -/
structure ConditionalSum where
  subtract : Bool
  /-- The condition is that the register is zero. -/
  negate : Bool
  deriving DecidableEq

namespace ConditionalSum

def named : List (String × ConditionalSum) :=
  [("cadd", ⟨false, false⟩), ("caddn", ⟨false, true⟩), ("csub", ⟨true, false⟩),
    ("csubn", ⟨true, true⟩)]

/-- The condition, from the register that decides. -/
def holds (f : ConditionalSum) (w : Word) : Bool := if f.negate then w = 0 else w ≠ 0

/-- The sum or difference of two words. -/
def sum (f : ConditionalSum) (x y : Word) : Int :=
  if f.subtract then x.toInt - y.toInt else x.toInt + y.toInt

/-- The register that decides and the two sources. Of three operands the destination is the left
source. -/
def sources? : List Operand → Option (Operand × Operand × Operand)
  | [x, cond, y] | [_, cond, x, y] => some (cond, x, y)
  | _ => none

end ConditionalSum

/-- The rows of these instructions. -/
theorem Opcode.conditional_rows : ∀ g ∈ table, ∀ r ∈ g.rows, ∀ p ∈ ConditionalSum.named,
    r.mnemonic = p.1 → r.action = .condArith p.2.subtract p.2.negate ∧ r.flags = .overflows ∧
      (r.operands.map (·.shape) = [.data, .data, .imm] ∨
        ∃ rhs ∈ [Shape.data, .imm], r.operands.map (·.shape) = [.data, .data, .data, rhs]) := by
  decide +kernel

/-! ## Results -/

/-- What an operation leaves behind whose condition fails: its left source, and flags that are
collected in their sticky copies. -/
structure Machine.Skips {β : Type} (m : Machine β) (dst : Nat) (x : Word) (m' : Machine β) :
    Prop where
  source : m'.core.read (.d dst) = x.setWidth 64
  sv : m'.core.flag .sv = (m.core.flag .sv || m.core.flag .v)
  sav : m'.core.flag .sav = (m.core.flag .sav || m.core.flag .av)
  others : ∀ k, k ≠ Flag.sv.bit → k ≠ Flag.sav.bit →
    m'.core.psw.getLsbD k = m.core.psw.getLsbD k

/-- The status word stays if there is nothing left to collect. -/
theorem Machine.Skips.psw_eq_iff {β : Type} {m m' : Machine β} {dst : Nat} {x : Word}
    (h : m.Skips dst x m') : m'.core.psw = m.core.psw ↔
      (m.core.flag .v = true → m.core.flag .sv = true) ∧
        (m.core.flag .av = true → m.core.flag .sav = true) := by
  constructor
  · intro hpsw
    have hflag (f : Flag) : m'.core.flag f = m.core.flag f := by rw [Core.flag, Core.flag, hpsw]
    refine ⟨fun hv => ?_, fun hav => ?_⟩
    · rw [← hflag, h.sv, hv, Bool.or_true]
    · rw [← hflag, h.sav, hav, Bool.or_true]
  · rintro ⟨hv, hav⟩
    refine BitVec.eq_of_getLsbD_eq fun k _ => ?_
    by_cases hsv : k = Flag.sv.bit
    · subst hsv
      exact h.sv.trans (Bool.or_eq_left_iff_imp.2 hv)
    · by_cases hsav : k = Flag.sav.bit
      · subst hsav
        exact h.sav.trans (Bool.or_eq_left_iff_imp.2 hav)
      · exact h.others k hsv hsav

namespace Lift

variable {β : Type} [Bus β] {pc : Address} {s : Supply} {m : Machine β} {n : Nat} {a b c : Expr}
  {x y w : Word} {t u : Bool}

theorem eval_select_congr {w : Width} {d : Expr} (h : b.eval m = d.eval m) :
    (Expr.select w c a b).eval m = (Expr.select w c a d).eval m := by
  simp only [Expr.select, Expr.xor, Expr.and, Expr.eval, h]

/-- A choice between a truth value and a flag, which is the flag as it is now. -/
theorem tells_select_flag (hc : c.Decides m n t) (ha : a.Decides m n u) (f : Flag) :
    (Expr.select .byte c a (.flag f)).Tells m (if t then u else m.core.flag f) := by
  have heval : (Expr.flag f).eval m =
      (Expr.const .byte (if m.core.flag f then 1 else 0)).eval m := by
    simp only [Expr.eval]
    cases m.core.flag f <;> rfl
  have hconst : (Expr.const .byte (if m.core.flag f then 1 else 0)).Decides m n
      (m.core.flag f) := by
    cases m.core.flag f with
    | false => exact .const 0 rfl
    | true => exact .const 1 rfl
  have hselect := Expr.Yields.select hc ha hconst (w := .byte) rfl
  obtain ⟨v, hv, hbit⟩ :
      (Expr.select .byte c a (.const .byte (if m.core.flag f then 1 else 0))).Tells m
        (if t then u else m.core.flag f) := by
    refine Expr.Decides.tells (n := n) ?_ (.refl m n)
    cases t <;> exact hselect
  exact ⟨v, (eval_select_congr heval).trans hv, hbit⟩

/-- A report if the condition holds; else what the flags say now is reported once more. -/
theorem runs_status_select {v av : Expr} {overflow advanced : Bool}
    {Q : Unit → Supply → Machine β → Prop} (hc : c.Decides m s.temps t)
    (hv : v.Decides m s.temps overflow) (hav : av.Decides m s.temps advanced)
    (hQ : ∀ m', m.Grows s.temps m' → m.Reports (if t then overflow else m.core.flag .v)
      (if t then advanced else m.core.flag .av) m' → Q () s m') :
    (status (.select .byte c v (.flag .v)) (.select .byte c av (.flag .av))).Runs pc s m Q := by
  refine .status_now (tells_select_flag hc hv .v) (fun m' hgrows hkept => ?_)
    fun m' hgrows hm _ => hQ m' hgrows hm
  rw [← hkept]
  exact tells_select_flag (hc.mono hgrows le_rfl) (hav.mono hgrows le_rfl) .av

theorem decides_condition (f : ConditionalSum) (hc : c.Yields m n w) :
    (condition f.negate c).Decides m n (f.holds w) := by
  have hzero : (Expr.const .word 0).Yields m n (0 : Word) := .const 0 rfl
  unfold condition ConditionalSum.holds
  cases f.negate with
  | true => exact hc.eq hzero rfl
  | false => exact hc.ne hzero rfl

/-- The statements of a conditional sum, with the operands read. -/
def conditionalSum (f : ConditionalSum) (dst : Register) (cond lhs rhs : Expr) : Emit Unit := do
  let taken := Expr.low .byte (← temp (condition f.negate cond))
  let lhs ← temp lhs
  let wide ← temp (.binary (if f.subtract then .sub else .add) .double
    (.sext .double lhs) (.sext .double rhs))
  let result ← temp (.low .word wide)
  status (.select .byte taken (wide.overflow .word .signed) (.flag .v))
    (.select .byte taken result.advanced (.flag .av))
  set dst (.select .word taken result lhs)

theorem carries_conditionalSum (f : ConditionalSum) (ha : a.Yields m n x) (hb : b.Yields m n y) :
    (Expr.binary (if f.subtract then .sub else .add) .double (.sext .double a)
      (.sext .double b)).Carries m n (f.sum x y) := by
  have ha := Expr.Carries.extend .signed ha
  have hb := Expr.Carries.extend .signed hb
  unfold ConditionalSum.sum
  split_ifs
  · exact ha.sub hb
  · exact ha.add hb

theorem fits_conditionalSum (f : ConditionalSum) (x y : Word) :
    Sign.signed.Fits .double (f.sum x y) := by
  have hx := abs_le.1 (abs_toInt_le x)
  have hy := abs_le.1 (abs_toInt_le y)
  refine fits_of_abs_lt (abs_lt.2 ?_)
  unfold ConditionalSum.sum
  split_ifs <;> omega

/-- Result and flags are those of the sum if the condition holds, and the left source and the old
flags if not. -/
theorem runs_conditionalSum (f : ConditionalSum) (m₁ : Machine β) {dst : Nat}
    (hc : c.Yields m s.temps w) (ha : a.Yields m s.temps x) (hb : b.Yields m s.temps y)
    (hpsw : m.core.psw = m₁.core.psw) :
    (conditionalSum f (.d dst) c a b).Runs pc s m fun _ _ m' =>
      m₁.Reports
          (if f.holds w then !decide (Sign.signed.Fits .word (f.sum x y)) else m₁.core.flag .v)
          (if f.holds w then Width.word.advances (f.sum x y) else m₁.core.flag .av) m' ∧
        m'.core.read (.d dst) =
          (if f.holds w then BitVec.ofInt 32 (f.sum x y) else x).setWidth 64 := by
  refine .bind (.temp_truth (decides_condition f hc) fun m₂ taken hgrows₂ hpsw₂ htaken => ?_)
  have ha := ha.mono hgrows₂ (Nat.le_succ _)
  have hb := hb.mono hgrows₂ (Nat.le_succ _)
  refine .bind (.temp ha (by decide) fun m₃ lhs hgrows₃ hpsw₃ hlhs => ?_)
  have htaken := htaken.mono hgrows₃ (Nat.le_succ _)
  have hb := hb.mono hgrows₃ (Nat.le_succ _)
  refine .bind (.temp (carries_conditionalSum f hlhs hb) (by decide)
    fun m₄ wide hgrows₄ hpsw₄ hwide => ?_)
  have htaken := htaken.mono hgrows₄ (Nat.le_succ _)
  have hlhs := hlhs.mono hgrows₄ (Nat.le_succ _)
  have hwide : wide.Carries m₄ _ (f.sum x y) := hwide
  refine .bind (.temp hwide.low_word (by decide) fun m₅ result hgrows₅ hpsw₅ hresult => ?_)
  have htaken : (Expr.low .byte taken).Decides m₅ _ (f.holds w) :=
    htaken.mono hgrows₅ (Nat.le_succ _)
  have hlhs := hlhs.mono hgrows₅ (Nat.le_succ _)
  have hwide : wide.Carries m₅ _ (f.sum x y) := hwide.mono hgrows₅ (Nat.le_succ _)
  have hadvanced : result.advanced.Decides m₅ _ (Width.word.advances (f.sum x y)) :=
    hresult.advanced (by decide)
  have hflag (f : Flag) : m₅.core.flag f = m₁.core.flag f := by
    rw [Core.flag, Core.flag, hpsw₅, hpsw₄, hpsw₃, hpsw₂, hpsw]
  have hoverflow := hwide.overflow (s := .signed) (fits_conditionalSum f x y)
  refine .bind (runs_status_select htaken hoverflow hadvanced fun m₆ hgrows₆ hm => ?_)
  have hselect := (Expr.Yields.select htaken hresult hlhs (w := .word) rfl).mono hgrows₆ le_rfl
  simp only [hflag] at hm
  refine .set hselect ⟨⟨hm.v, ?_, hm.av, ?_⟩, (Register.Takes.word dst).read_write _ _⟩
  · exact hm.sv.trans (by rw [hflag])
  · exact hm.sav.trans (by rw [hflag])

end Lift

/-- Where overflow is declared, the other bits of the status word stay. -/
theorem Machine.psw_step_overflows {β : Type} [Bus β] {isa : Isa} {m : Machine β} {i : Instruction}
    {k : Nat} (hi : m.instruction? isa = some i) (hflags : i.row.flags = .overflows)
    (hspecial : .psw ∉ i.special) (hv : k ≠ Flag.v.bit) (hsv : k ≠ Flag.sv.bit)
    (hav : k ≠ Flag.av.bit) (hsav : k ≠ Flag.sav.bit) :
    (m.step isa).1.core.psw.getLsbD k = m.core.psw.getLsbD k := by
  have hdeclared (f : Flag) : FlagSet.overflows.contains f = true →
      f = .v ∨ f = .sv ∨ f = .av ∨ f = .sav := by
    cases f <;> decide
  refine psw_step hi hspecial fun f hf => ?_
  rw [hflags] at hf
  rcases hdeclared f hf with rfl | rfl | rfl | rfl
  · exact hv.symm
  · exact hsv.symm
  · exact hav.symm
  · exact hsav.symm

/-! ## All conditional sums -/

namespace Instruction

variable {i : Instruction} {f : ConditionalSum} {dst : Register} {cond x y : Operand}

/-- What the statements are made of, with three operands or four. -/
theorem plan_conditionalSum (ha : i.row.action = .condArith f.subtract f.negate)
    (hops : i.operands = [.reg dst, cond, y] ∧ x = .reg dst ∨ i.operands = [.reg dst, cond, x, y])
    (hvalues : ∀ o ∈ i.operands, Role.value.takes o.shape = true) :
    i.plan = Lift.emitting (Lift.conditionalSum f dst cond.expr x.expr y.expr) := by
  have hsource := operands_of_values hvalues
  rw [Instruction.plan, ha, Lift.plan]
  unfold Lift.Plan.condArith
  rcases hops with ⟨hops, rfl⟩ | hops
  all_goals rw [hops] at hvalues hsource
  all_goals simp only [Lift.Source.arity, hsource, List.length_cons, List.length_nil]
  · rw [Lift.Source.reg_of 0 hsource rfl,
      Lift.Source.value_of 1 hsource rfl (hvalues cond (by simp)),
      Lift.Source.value_of 0 hsource rfl (hvalues _ (by simp)),
      Lift.Source.value_of 2 hsource rfl (hvalues y (by simp))]
    rfl
  · rw [Lift.Source.reg_of 0 hsource rfl,
      Lift.Source.value_of 1 hsource rfl (hvalues cond (by simp)),
      Lift.Source.value_of 2 hsource rfl (hvalues x (by simp)),
      Lift.Source.value_of 3 hsource rfl (hvalues y (by simp))]
    rfl

/-- The destination, the register that decides and the two sources. -/
theorem operands_of_conditionalSum (hshapes : i.operands.map (·.shape) = [.data, .data, .imm] ∨
      ∃ rhs ∈ [Shape.data, .imm], i.operands.map (·.shape) = [.data, .data, .data, rhs]) :
    ∃ (dst : Nat) (cond x y : Operand), cond.IsWord ∧ x.IsWord ∧ y.IsWord ∧
      (i.operands = [.reg (.d dst), cond, y] ∧ x = .reg (.d dst) ∨
        i.operands = [.reg (.d dst), cond, x, y]) := by
  simp only [List.map_eq_cons_iff, List.map_eq_nil_iff] at hshapes
  rcases hshapes with ⟨o, _, hops, ho, cond, _, rfl, hcond, y, _, rfl, hy, rfl⟩ |
    ⟨rhs, hrhs, o, _, hops, ho, cond, _, rfl, hcond, x, _, rfl, hx, y, _, rfl, hy, rfl⟩
  all_goals obtain ⟨dst, rfl⟩ := Operand.exists_data ho
  · exact ⟨dst, cond, _, y, .inl hcond, .inl rfl, .inr hy, .inl ⟨hops, rfl⟩⟩
  · have hword : y.IsWord := by simpa [Operand.IsWord, hy] using hrhs
    exact ⟨dst, cond, x, y, .inl hcond, .inl hx, hword, .inr hops⟩

end Instruction

/-- Conditional sums keep their left source if the condition fails, and leave the status word as it
was if both sticky flags are up to date; if not, these take over what they lack. -/
theorem untaken_sums_keep_source {β : Type} [Bus β] (isa : Isa) (m : Machine β) {i : Instruction}
    {f : ConditionalSum} (hi : m.instruction? isa = some i)
    (hname : (i.mnemonic, f) ∈ ConditionalSum.named) :
    ∃ (dst : Nat) (cond x y : Operand), i.operands.head? = some (.reg (.d dst)) ∧
      ConditionalSum.sources? i.operands = some (cond, x, y) ∧ (m.step isa).2 = .done ∧
      if f.holds (cond.word m.core) then
        let exact := f.sum (x.word m.core) (y.word m.core)
        m.Delivers .signed .word [exact] (.d dst) (BitVec.ofInt 32 exact) (m.step isa).1
      else
        m.Skips dst (x.word m.core) (m.step isa).1 ∧
          ((m.step isa).1.core.psw = m.core.psw ↔
            (m.core.flag .v = true → m.core.flag .sv = true) ∧
              (m.core.flag .av = true → m.core.flag .sav = true)) := by
  obtain ⟨g, hg, hr, raw, addr, hos⟩ := Instruction.resolved hi
  obtain ⟨ha, hflags, hshapes⟩ := Opcode.conditional_rows g hg i.row hr _ hname rfl
  rw [← Instruction.shapes_of_resolved hos] at hshapes
  obtain ⟨dst, cond, x, y, hcond, hx, hy, hops⟩ := Instruction.operands_of_conditionalSum hshapes
  have hread : i.operands.head? = some (.reg (.d dst)) ∧
      ConditionalSum.sources? i.operands = some (cond, x, y) := by
    rcases hops with ⟨hops, rfl⟩ | hops <;> rw [hops] <;> exact ⟨rfl, rfl⟩
  have hvalues : ∀ o ∈ i.operands, Role.value.takes o.shape = true := by
    rcases hops with ⟨hops, -⟩ | hops
    · simp only [hops, List.forall_mem_cons]
      exact ⟨rfl, hcond.takes, hy.takes, by simp⟩
    · simp only [hops, List.forall_mem_cons]
      exact ⟨rfl, hcond.takes, hx.takes, hy.takes, by simp⟩
  obtain ⟨hdone, hreports, hresult⟩ := Machine.step_of_runs hi
    (Instruction.plan_conditionalSum ha hops hvalues) fun s _ =>
      Lift.runs_conditionalSum f m (hcond.yields m i _) (hx.yields m i _) (hy.yields m i _) rfl
  refine ⟨dst, cond, x, y, hread.1, hread.2, hdone, ?_⟩
  cases hholds : f.holds (cond.word m.core) with
  | true =>
    rw [hholds] at hreports hresult
    refine ⟨?_, hresult⟩
    simpa only [List.any_cons, List.any_nil, Bool.or_false, if_true] using hreports
  | false =>
    rw [hholds] at hreports hresult
    have hskips : m.Skips dst (x.word m.core) (m.step isa).1 := by
      refine ⟨hresult, hreports.sv, hreports.sav, fun k hsv hsav => ?_⟩
      by_cases hv : k = Flag.v.bit
      · rw [hv]
        exact hreports.v
      by_cases hav : k = Flag.av.bit
      · rw [hav]
        exact hreports.av
      refine Machine.psw_step_overflows hi hflags ?_ hv hsv hav hsav
      rw [Instruction.special, ha]
      exact List.not_mem_nil
    exact ⟨hskips, hskips.psw_eq_iff⟩

/-- One instruction to execute, with a word in `d1` and flags. -/
def flaggedSum (psw : Word) (bytes : List Byte) : Machine Window where
  core := { ({} : Core).write (.d 1) 7 with psw }
  bus := { base := 0, size := 4, bytes := .putAll .empty 0 bytes }

/-- `caddn d3, d1, d1, d1` with the overflow flag and its sticky copy set. -/
theorem untaken_sums_keep_source_caddn :
    ((flaggedSum 0x60000000 [0x2B, 0x11, 0x10, 0x31]).step .v16).1.core.read (.d 3) = 7 ∧
      ((flaggedSum 0x60000000 [0x2B, 0x11, 0x10, 0x31]).step .v16).1.core.psw = 0x60000000 := by
  obtain ⟨i, hi, hname, hhead, hsources⟩ :
      ∃ i, (flaggedSum 0x60000000 [0x2B, 0x11, 0x10, 0x31]).instruction? .v16 = some i ∧
        (i.mnemonic, ⟨false, true⟩) ∈ ConditionalSum.named ∧
        i.operands.head? = some (.reg (.d 3)) ∧
        ConditionalSum.sources? i.operands =
          some (.reg (.d 1), .reg (.d 1), .reg (.d 1)) :=
    ⟨_, rfl, by decide +kernel, by decide +kernel, by decide +kernel⟩
  obtain ⟨dst, cond, x, y, hdst, hread, -, hskips⟩ := untaken_sums_keep_source .v16 _ hi hname
  rw [hsources] at hread
  obtain ⟨rfl, rfl, -⟩ : .reg (.d 1) = cond ∧ .reg (.d 1) = x ∧ .reg (.d 1) = y := by
    simpa using hread
  obtain rfl : dst = 3 := by simpa [hhead, eq_comm] using hdst
  obtain ⟨hskips, hpsw⟩ := hskips
  exact ⟨hskips.source, hpsw.2 (by decide)⟩

/-- `cadd d3, d0, d1, d2` does not add, but sets the sticky copy of an overflow flag that was set
without it. -/
theorem untaken_sum_sets_sticky :
    (flaggedSum 0x40000000 [0x2B, 0x21, 0x00, 0x30]).core.read (.d 0) = 0 ∧
      ((flaggedSum 0x40000000 [0x2B, 0x21, 0x00, 0x30]).step .v16).1.core.psw = 0x60000000 := by
  decide +kernel

end Tricore
