import Mathlib
import Tricore.Memory.Window
import Tricore.Proofs.Contexts
import Tricore.Proofs.Frame
import Tricore.Proofs.WellTyped

/-!
# Sticky flags

Overflow and advanced overflow each have a sticky copy in the status word. An instruction that
reports overflow writes the flag first and then adds it to the copy, in straight code; so a step that
completes leaves the copy set where it was set before or the flag is set now
(`Machine.flag_step_sticky`). Instructions that declare no flag leave the whole status word alone,
except for the four that load it. Over a run of such instructions sticky flags only grow
(`status_flags_stick`).
-/

namespace Tricore

/-! ## Statements -/

theorem Expr.eval_or_flag {β : Type} [Bus β] (m : Machine β) (f g : Flag) :
    ∃ v, (Expr.or .byte (.flag f) (.flag g)).eval m = .ok v ∧
      v.getLsbD 0 = (m.core.flag f || m.core.flag g) := by
  refine ⟨_, rfl, ?_⟩
  cases m.core.flag f <;> cases m.core.flag g <;> rfl

theorem Core.flag_setFlag (c : Core) (f : Flag) (on : Bool) : (c.setFlag f on).flag f = on := by
  have hbit : f.bit < 32 := by cases f <;> decide
  cases on <;> simp [setFlag, flag, hbit]

theorem Core.flag_setFlag_of_ne {c : Core} {f g : Flag} {on : Bool} (h : f.bit ≠ g.bit) :
    (c.setFlag f on).flag g = c.flag g := by
  have hbit : g.bit < 32 := by cases g <;> decide
  cases on <;> simp [setFlag, flag, hbit, h.symm]

theorem Stmt.straight_of_usesLabel {stmt : Stmt} (h : stmt.usesLabel = false) :
    stmt.straight = true := by
  cases stmt with
  | branch | goto => cases h
  | _ => rfl

/-- A tame statement keeps the status bits that are not its flag's. -/
theorem Stmt.Tame.psw_exec {β : Type} [Bus β] {special : List Register} {stmt : Stmt}
    {m : Machine β} {pc : Address} {k : Nat} (h : stmt.Tame special) (hpsw : .psw ∉ special)
    (hf : ∀ f, stmt.flag? = some f → f.bit ≠ k) :
    (stmt.exec pc m).1.core.psw.getLsbD k = m.core.psw.getLsbD k := by
  refine Stmt.psw_exec hf fun hnone hw => ?_
  rcases h.listed hw rfl with hs | ⟨-, hsome⟩
  · exact hpsw hs
  · rw [hnone] at hsome
    cases hsome

namespace Machine

variable {β : Type} [Bus β] {m : Machine β} {pc : Address} {code : List Stmt}
  {special : List Register}

theorem psw_not_named (htame : ∀ stmt ∈ code, stmt.Tame special) (hpsw : .psw ∉ special) :
    .psw ∉ namedCells code := by
  intro hmem
  obtain ⟨stmt, hs, hcell⟩ := List.mem_flatMap.1 hmem
  obtain ⟨r, hr, hx⟩ := List.mem_flatMap.1 hcell
  exact hpsw ((htame stmt hs).named hr .psw hx rfl)

/-- Straight code that completes keeps the status bits of flags that it does not write. -/
theorem run_append_psw {before after : List Stmt} {fuel : Nat}
    (htame : ∀ stmt ∈ before, stmt.Tame special) (hpsw : .psw ∉ special)
    (hs : ∀ stmt ∈ before, stmt.straight = true)
    (hdone : (m.run pc code (before.length + fuel) (before ++ after)).2 = .done) :
    ∃ m' : Machine β,
      m.run pc code (before.length + fuel) (before ++ after) = m'.run pc code fuel after ∧
      ∀ f : Flag, (∀ g ∈ before.filterMap Stmt.flag?, g.bit ≠ f.bit) →
        m'.core.flag f = m.core.flag f := by
  obtain ⟨m', hrun, hkeep⟩ := run_append_keeps hs hdone
  refine ⟨m', hrun, fun f hf => ?_⟩
  refine hkeep (fun m' => m'.core.flag f = m.core.flag f) (fun stmt hmem m₁ hm₁ => ?_) rfl
  have hbits : ∀ g, stmt.flag? = some g → g.bit ≠ f.bit := fun g hg =>
    hf g (List.mem_filterMap.2 ⟨stmt, hmem, hg⟩)
  exact ((htame stmt hmem).psw_exec hpsw hbits).trans hm₁

omit [Bus β] in
/-- Statements split where a flag is written. -/
theorem exists_setFlag_of_flags {f : Flag} {first last : List Flag}
    (h : code.filterMap Stmt.flag? = first ++ f :: last) :
    ∃ before value after, code = before ++ .setFlag f value :: after ∧
      before.filterMap Stmt.flag? = first ∧ after.filterMap Stmt.flag? = last := by
  obtain ⟨start, rest, rfl, hstart, hrest⟩ := List.filterMap_eq_append_iff.1 h
  obtain ⟨quiet, stmt, after, rfl, hquiet, hstmt, hafter⟩ := List.filterMap_eq_cons_iff.1 hrest
  cases stmt with
  | setFlag g value =>
    obtain rfl := Option.some.inj hstmt
    refine ⟨start ++ quiet, value, after, by simp, ?_, hafter⟩
    rw [List.filterMap_append, hstart, List.filterMap_eq_nil_iff.2 hquiet, List.append_nil]
  | _ => cases hstmt

/-- A sticky flag that straight code writes once, and its source not after that, ends up set where it
was set before or the source is. -/
theorem flag_run_sticky {f source : Flag} {first last : List Flag}
    (htame : ∀ stmt ∈ code, stmt.Tame special) (hpsw : .psw ∉ special)
    (hs : ∀ stmt ∈ code, stmt.straight = true)
    (hflags : code.filterMap Stmt.flag? = first ++ f :: last) (hsource : f.source? = some source)
    (hfirst : ∀ g ∈ first, g.bit ≠ f.bit)
    (hlast : ∀ g ∈ last, g.bit ≠ f.bit ∧ g.bit ≠ source.bit)
    (hdone : (m.run pc code code.length code).2 = .done) :
    (m.run pc code code.length code).1.core.flag f =
      (m.core.flag f || (m.run pc code code.length code).1.core.flag source) := by
  obtain ⟨before, value, after, hcode, hbefore, hafter⟩ := exists_setFlag_of_flags hflags
  have hmem : ∀ x, x ∈ before ∨ x = .setFlag f value ∨ x ∈ after → x ∈ code := fun x hx => by
    rw [hcode]
    simpa using hx
  have hrun : m.run pc code code.length code = m.run pc code (before.length + (after.length + 0 + 1))
      (before ++ (.setFlag f value :: (after ++ []))) := by
    rw [List.append_nil, ← hcode]
    congr 1
    simp [hcode]
  rw [hrun] at hdone ⊢
  -- What comes before the sticky flag keeps it.
  obtain ⟨m₁, hrun₁, hkeep₁⟩ := run_append_psw (fun x hx => htame x (hmem x (.inl hx))) hpsw
    (fun x hx => hs x (hmem x (.inl hx))) hdone
  rw [hrun₁] at hdone ⊢
  have hf₁ : m₁.core.flag f = m.core.flag f := hkeep₁ f (hbefore ▸ hfirst)
  -- The source is added to it.
  have hvalue : value = .or .byte (.flag f) (.flag source) :=
    htame _ (hmem _ (.inr (.inl rfl))) source hsource
  obtain ⟨v, hv, hbit⟩ := Expr.eval_or_flag m₁ f source
  have hexec : ((Stmt.setFlag f value).exec pc m₁).1 =
      m₁.withCore (·.setFlag f (m₁.core.flag f || m₁.core.flag source)) := by
    simp only [hvalue, Stmt.exec, hv, hbit]
  have hsticky := run_cons rfl hdone
  rw [hexec, ← Nat.add_zero after.length] at hsticky
  rw [hsticky] at hdone ⊢
  -- What comes after it keeps both.
  obtain ⟨m₂, hrun₂, hkeep₂⟩ := run_append_psw (fun x hx => htame x (hmem x (.inr (.inr hx)))) hpsw
    (fun x hx => hs x (hmem x (.inr (.inr hx)))) hdone
  rw [hrun₂, run]
  rw [hafter] at hkeep₂
  have hbits : f.bit ≠ source.bit := by cases f <;> cases hsource <;> decide
  have hf₂ : m₂.core.flag f = (m₁.core.flag f || m₁.core.flag source) :=
    (hkeep₂ f fun g hg => (hlast g hg).1).trans (Core.flag_setFlag _ _ _)
  have hsource₂ : m₂.core.flag source = m₁.core.flag source :=
    (hkeep₂ source fun g hg => (hlast g hg).2).trans (Core.flag_setFlag_of_ne hbits)
  rw [hf₂, hsource₂, hf₁]

end Machine

/-! ## Instructions -/

/-- The lists of flags that instructions on integers write. -/
def Flag.statuses : List (List Flag) := [[], [.v, .sv, .av], overflows, .c :: overflows]

/-- The lists have a sticky flag once, and its source before it. -/
theorem Flag.split_of_source? {fs : List Flag} {f source : Flag} (hfs : fs ∈ statuses)
    (hsource : f.source? = some source) (hf : (FlagSet.ofList fs).contains f = true) :
    ∃ first last, fs = first ++ f :: last ∧ (∀ g ∈ first, g.bit ≠ f.bit) ∧
      ∀ g ∈ last, g.bit ≠ f.bit ∧ g.bit ≠ source.bit := by
  simp only [statuses, List.mem_cons, List.not_mem_nil, or_false] at hfs
  cases f with
  | sv =>
    obtain rfl := Option.some.inj hsource
    rcases hfs with rfl | rfl | rfl | rfl
    · cases hf
    · exact ⟨[.v], [.av], rfl, by decide, by decide⟩
    · exact ⟨[.v], [.av, .sav], rfl, by decide, by decide⟩
    · exact ⟨[.c, .v], [.av, .sav], rfl, by decide, by decide⟩
  | sav =>
    obtain rfl := Option.some.inj hsource
    rcases hfs with rfl | rfl | rfl | rfl
    · cases hf
    · cases hf
    · exact ⟨[.v, .sv, .av], [], rfl, by decide, by decide⟩
    · exact ⟨[.c, .v, .sv, .av], [], rfl, by decide, by decide⟩
  | _ => cases hsource

namespace Action

variable {a : Action} {first : Option Shape}

/-- What reports no float exception writes one of the lists. -/
theorem flags_mem_statuses (h : .fs ∉ a.flags first) : a.flags first ∈ Flag.statuses := by
  have hnone : [] ∈ Flag.statuses := .head _
  have hdivide : [.v, .sv, .av] ∈ Flag.statuses := .tail _ (.head _)
  have hoverflows : Flag.overflows ∈ Flag.statuses := .tail _ (.tail _ (.head _))
  have hcarry : .c :: Flag.overflows ∈ Flag.statuses := .tail _ (.tail _ (.tail _ (.head _)))
  cases a with
  | add | sub =>
    show (if first = some .address then [] else Flag.overflows) ∈ Flag.statuses
    split
    · exact hnone
    · exact hoverflows
  | packed op =>
    show (if op.reports then Flag.overflows else []) ∈ Flag.statuses
    split
    · exact hoverflows
    · exact hnone
  | shift kind =>
    cases kind with
    | logical => exact hnone
    | arithmetic => exact hcarry
    | saturating => exact hoverflows
  | addSat | subSat | rsub | rsubSat | condArith | multiply | multiplyAdd | halfMultiply
  | fractionMultiply => exact hoverflows
  | addCarry | addExtended | subCarry | subExtended => exact hcarry
  | divide | divideInit => exact hdivide
  | float op => exact absurd (List.mem_append_right op.raised (.head _)) h
  | floatConvert c => exact absurd (List.mem_append_right c.raised (.head _)) h
  | floatMultiplyAdd => exact absurd (List.mem_append_right (FloatOp.raised .add) (.head _)) h
  | floatCompare => exact absurd (.tail _ (.head _)) h
  | updateFlags => exact absurd (.head _) h
  | _ => exact hnone

/-- What writes flags is straight code and writes no special register. -/
theorem plain_of_flags (h : a.flags first ≠ []) (os : List Operand) :
    a.special os = [] ∧ a.labels = false := by
  cases a with
  | jump | loopForever | branch | branchBit | branchStep | loop | call | fastCall | jumpLink
  | jumpIndirect | callIndirect | fastCallIndirect | jumpLinkIndirect | ret | fastRet
  | retException | retMonitor | writeCsfr | context | platform | compareSwap | trapOn =>
    exact absurd rfl h
  | _ => exact ⟨rfl, rfl⟩

end Action

theorem Intrinsic.of_psw_mem {i : Intrinsic} (h : .psw ∈ i.implied) :
    i = restoreUpperContext ∨ i = loadUpperContext := by
  revert h
  cases i <;> decide

/-- The actions that may write the whole status word. -/
theorem Action.of_psw_mem {a : Action} {os : List Operand} (h : .psw ∈ a.special os)
    (ha : a.declares = true) :
    a = .ret ∨ a = .retException ∨ a = .retMonitor ∨ a = .context .loadUpperContext ∨
      a = .writeCsfr ∧ .csfr 0xFE04 ∈ os := by
  cases a with
  | ret | retException | retMonitor => simp
  | context i =>
    rcases Intrinsic.of_psw_mem (List.mem_of_mem_filter h) with rfl | rfl
    · cases ha
    · simp
  | platform i =>
    rcases Intrinsic.of_psw_mem (List.mem_of_mem_filter h) with rfl | rfl <;> cases ha
  | writeCsfr =>
    obtain ⟨o, ho, hr⟩ := List.mem_filterMap.1 h
    cases o with
    | csfr offset =>
      have hoffset := Register.offset_of_canonical (Option.some.inj hr) rfl
      exact .inr (.inr (.inr (.inr ⟨rfl, hoffset ▸ ho⟩)))
    | _ => cases hr
  | call | callIndirect =>
    rcases List.mem_cons.1 h with h | h
    · cases h
    · cases List.mem_singleton.1 h
  | jump | loopForever | branch | branchBit | branchStep | loop | fastCall | jumpLink
  | jumpIndirect | fastCallIndirect | jumpLinkIndirect | fastRet =>
    exact absurd (List.mem_singleton.1 h) nofun
  | _ => cases h

namespace Instruction

/-- The instruction loads the whole status word: `ret`, `rfe`, `lducx`, and `mtcr` to it. -/
def loadsStatus (i : Instruction) : Bool :=
  match i.row.action with
  | .ret | .retException | .context .loadUpperContext => true
  | .writeCsfr => i.operands.contains (.csfr 0xFE04)
  | _ => false

/-- The instruction declares no float exception and does not load the status word. -/
def keepsSticky (i : Instruction) : Bool :=
  Flag.floating.all (!i.row.flags.contains ·) && !i.loadsStatus

end Instruction

/-! ## Steps -/

namespace Machine

variable {β : Type} [Bus β] {isa : Isa} {m : Machine β} {i : Instruction}
  (hi : m.instruction? isa = some i)
include hi

/-- The code of an instruction that declares flags, but no float exception. -/
theorem flags_of_instruction? (hfloat : i.row.flags.contains .fs = false) :
    ∃ fs ∈ Flag.statuses, i.row.flags = .ofList fs ∧ ∃ code,
      m.step isa = (m.start i).run i.addr code code.length code ∧
      (∀ stmt ∈ code, stmt.Tame i.special) ∧ code.filterMap Stmt.flag? = fs ∧
      (fs ≠ [] → .psw ∉ i.special ∧ ∀ stmt ∈ code, stmt.straight = true) := by
  obtain ⟨bytes, hf, hd⟩ := instruction?_eq_some.1 hi
  obtain ⟨-, -, -, -, g, hg, hr, -⟩ := Instruction.of_decode hd
  obtain ⟨e, hp, hemits, htypes⟩ := (Instruction.plan_of_decode hd).and (Instruction.plan_typed hd)
  have hlisted := Opcode.flags_listed g hg _ hr
  refine ⟨i.row.action.flags i.row.shapes[0]?, Action.flags_mem_statuses fun hmem => ?_, hlisted,
    _, step_of_plan hf hd hp, hemits.tame _, hemits.flags _, fun hne => ?_⟩
  · rw [hlisted, FlagSet.contains_ofList hmem] at hfloat
    cases hfloat
  · obtain ⟨hspecial, hlabels⟩ := Action.plain_of_flags hne i.operands
    rw [hlabels] at htypes
    refine ⟨?_, fun stmt hs => ?_⟩
    · rw [Instruction.special, hspecial]
      exact List.not_mem_nil
    · exact Stmt.straight_of_usesLabel (((htypes _ (by simp)).unlabelled rfl).stmts stmt hs)

/-- A sticky flag that is declared collects its source. -/
theorem flag_step_sticky {f source : Flag} (hfloat : i.row.flags.contains .fs = false)
    (hsource : f.source? = some source) (hf : i.row.flags.contains f = true)
    (hdone : (m.step isa).2 = .done) :
    (m.step isa).1.core.flag f = (m.core.flag f || (m.step isa).1.core.flag source) := by
  obtain ⟨fs, hfs, hdeclared, code, hstep, htame, hflags, hplain⟩ :=
    flags_of_instruction? hi hfloat
  rw [hdeclared] at hf
  obtain ⟨first, last, rfl, hfirst, hlast⟩ := Flag.split_of_source? hfs hsource hf
  obtain ⟨hpsw, hs⟩ := hplain (by simp)
  rw [hstep] at hdone ⊢
  exact flag_run_sticky htame hpsw hs hflags hsource hfirst hlast hdone

/-- Status bits whose flags are not declared keep their value, unless the whole word is written. -/
theorem psw_step {k : Nat} (hpsw : .psw ∉ i.special)
    (hk : ∀ f, i.row.flags.contains f = true → f.bit ≠ k) :
    (m.step isa).1.core.psw.getLsbD k = m.core.psw.getLsbD k := by
  obtain ⟨bytes, hf, hd⟩ := instruction?_eq_some.1 hi
  obtain ⟨t, hl, hstep, htame, hflags⟩ := step_of_decode hf hd
  rw [hstep, psw_run htame (psw_not_named htame hpsw) (hflags ▸ hk)]
  rfl

theorem psw_not_special (hloads : i.loadsStatus = false) (hdone : (m.step isa).2 = .done) :
    .psw ∉ i.special := by
  obtain ⟨bytes, hf, hd⟩ := instruction?_eq_some.1 hi
  obtain ⟨-, hdeclares⟩ := fits_of_instruction? hi
  intro hmem
  unfold Instruction.loadsStatus at hloads
  rcases Action.of_psw_mem hmem hdeclares with ha | ha | ha | ha | ⟨ha, ho⟩
  · rw [ha] at hloads
    cases hloads
  · rw [ha] at hloads
    cases hloads
  · exact Instruction.not_done_retMonitor hf hd hdone (by rw [Instruction.plan, ha]; rfl)
  · rw [ha] at hloads
    cases hloads
  · rw [ha] at hloads
    cases (List.contains_iff_mem.2 ho).symm.trans hloads

end Machine

/-! ## Runs -/

/-- Integer flags share bits with floating-point flags only. -/
theorem Flag.eq_or_floating {f g : Flag} (hf : f ∈ integer) (h : g.bit = f.bit) :
    g = f ∨ g ∈ floating := by
  revert f
  cases g <;> decide

/-- Sticky flags that were set still are, and overflow is in its sticky flag if it was before. -/
structure Core.StickyLe (c c' : Core) : Prop where
  sv : c.flag .sv = true → c'.flag .sv = true
  sav : c.flag .sav = true → c'.flag .sav = true
  recorded : (c.flag .v = true → c.flag .sv = true) → c'.flag .v = true → c'.flag .sv = true

namespace Core.StickyLe

theorem refl (c : Core) : c.StickyLe c := ⟨id, id, id⟩

theorem trans {c c' c'' : Core} (h : c.StickyLe c') (h' : c'.StickyLe c'') : c.StickyLe c'' where
  sv hc := h'.sv (h.sv hc)
  sav hc := h'.sav (h.sav hc)
  recorded hc := h'.recorded (h.recorded hc)

end Core.StickyLe

namespace Machine

variable {β : Type} [Bus β] {isa : Isa} {m : Machine β} {i : Instruction}

theorem stickyLe_step (hi : m.instruction? isa = some i) (hkeeps : i.keepsSticky = true)
    (hdone : (m.step isa).2 = .done) : m.core.StickyLe (m.step isa).1.core := by
  simp only [Instruction.keepsSticky, Bool.and_eq_true, Bool.not_eq_true', List.all_eq_true] at hkeeps
  obtain ⟨hfloat, hloads⟩ := hkeeps
  have hfs : i.row.flags.contains .fs = false := hfloat .fs (.head _)
  have hpsw := psw_not_special hi hloads hdone
  have hstays {f : Flag} (hf : f ∈ Flag.integer) (hnot : i.row.flags.contains f = false) :
      (m.step isa).1.core.flag f = m.core.flag f := by
    refine psw_step hi hpsw fun g hg hbit => ?_
    rcases Flag.eq_or_floating hf hbit with rfl | hmem
    · cases hg.symm.trans hnot
    · cases hg.symm.trans (hfloat g hmem)
  have hgrows {f source : Flag} (hf : f ∈ Flag.integer) (hsource : f.source? = some source)
      (hset : m.core.flag f = true) : (m.step isa).1.core.flag f = true := by
    cases hdeclared : i.row.flags.contains f with
    | true => rw [flag_step_sticky hi hfs hsource hdeclared hdone, hset, Bool.true_or]
    | false => rw [hstays hf hdeclared, hset]
  refine ⟨hgrows (by decide) rfl, hgrows (by decide) rfl, fun hbefore hv => ?_⟩
  cases hdeclared : i.row.flags.contains .sv with
  | true => rw [flag_step_sticky hi hfs rfl hdeclared hdone, hv, Bool.or_true]
  | false =>
    -- Overflow is declared with its sticky flag only, so both are as before.
    obtain ⟨fs, hmem, hlist, -⟩ := flags_of_instruction? hi hfs
    have hboth : ∀ fs ∈ Flag.statuses,
        (FlagSet.ofList fs).contains .v = (FlagSet.ofList fs).contains .sv := by decide
    have hnot : i.row.flags.contains .v = false := by
      rw [hlist, hboth fs hmem, ← hlist, hdeclared]
    rw [hstays (by decide) hnot] at hv
    rw [hstays (by decide) hdeclared, hbefore hv]

theorem stickyLe_after {n : Nat}
    (hdone : ∀ k < n, ((m.after isa k).step isa).2 = .done)
    (hkeeps : ∀ k < n, ∀ i, (m.after isa k).instruction? isa = some i → i.keepsSticky = true)
    {j k : Nat} (hjk : j ≤ k) (hk : k ≤ n) : (m.after isa j).core.StickyLe (m.after isa k).core := by
  induction k, hjk using Nat.le_induction with
  | base => exact .refl _
  | succ k hjk ih =>
    have hlt : k < n := by omega
    obtain ⟨bytes, i, hf, hd⟩ := decoded_of_done (hdone k hlt)
    have hi := instruction?_eq_some.2 ⟨bytes, hf, hd⟩
    exact (ih (by omega)).trans (stickyLe_step hi (hkeeps k hlt i hi) (hdone k hlt))

end Machine

/-- What a completed instruction that declares flags of integers does to the sticky flags, and what
any number of them do: sticky flags never go from set to clear, and overflow stays recorded in its
sticky flag. -/
theorem status_flags_stick {β : Type} [Bus β] (isa : Isa) :
    (∀ (m : Machine β) (i : Instruction), m.instruction? isa = some i → (m.step isa).2 = .done →
      (i.row.flags = .overflows ∨ i.row.flags = .carryOverflows →
        (m.step isa).1.core.flag .sv = (m.core.flag .sv || (m.step isa).1.core.flag .v) ∧
        (m.step isa).1.core.flag .sav = (m.core.flag .sav || (m.step isa).1.core.flag .av)) ∧
      (i.row.flags = .overflow →
        (m.step isa).1.core.flag .sv = (m.core.flag .sv || (m.step isa).1.core.flag .v) ∧
        (m.step isa).1.core.flag .sav = m.core.flag .sav) ∧
      (i.row.flags = .empty → i.loadsStatus = false → (m.step isa).1.core.psw = m.core.psw)) ∧
    ∀ (m : Machine β) (n : Nat), (∀ k < n, ((m.after isa k).step isa).2 = .done) →
      (∀ k < n, ∀ i, (m.after isa k).instruction? isa = some i → i.keepsSticky = true) →
      (∀ j k, j ≤ k → k ≤ n →
        ((m.after isa j).core.flag .sv = true → (m.after isa k).core.flag .sv = true) ∧
        ((m.after isa j).core.flag .sav = true → (m.after isa k).core.flag .sav = true)) ∧
      ((m.core.flag .v = true → m.core.flag .sv = true) →
        ∀ k ≤ n, (m.after isa k).core.flag .v = true → (m.after isa k).core.flag .sv = true) := by
  refine ⟨fun m i hi hdone => ⟨fun hall => ?_, fun hsome => ?_, fun hnone hloads => ?_⟩,
    fun m n hdone hkeeps => ?_⟩
  · have hfloat : i.row.flags.contains .fs = false := by rcases hall with h | h <;> rw [h] <;> rfl
    have hsv : i.row.flags.contains .sv = true := by rcases hall with h | h <;> rw [h] <;> rfl
    have hsav : i.row.flags.contains .sav = true := by rcases hall with h | h <;> rw [h] <;> rfl
    exact ⟨Machine.flag_step_sticky hi hfloat rfl hsv hdone,
      Machine.flag_step_sticky hi hfloat rfl hsav hdone⟩
  · have hfloat : i.row.flags.contains .fs = false := by rw [hsome]; rfl
    refine ⟨Machine.flag_step_sticky hi hfloat rfl (by rw [hsome]; rfl) hdone, ?_⟩
    obtain ⟨fs, -, hlist, _, -, -, -, hplain⟩ := Machine.flags_of_instruction? hi hfloat
    have hne : fs ≠ [] := by
      rintro rfl
      cases hlist.symm.trans hsome
    refine Machine.psw_step hi (hplain hne).1 fun f hf => ?_
    rw [hsome] at hf
    revert hf
    cases f <;> decide
  · refine BitVec.eq_of_getLsbD_eq fun k _ => ?_
    refine Machine.psw_step hi (Machine.psw_not_special hi hloads hdone) fun f hf => ?_
    rw [hnone] at hf
    cases f <;> cases hf
  · refine ⟨fun j k hjk hk => ?_, fun hbefore k hk => ?_⟩
    · have hle := Machine.stickyLe_after hdone hkeeps hjk hk
      exact ⟨hle.sv, hle.sav⟩
    · exact (Machine.stickyLe_after hdone hkeeps (Nat.zero_le k) hk).recorded hbefore

/-- `add d0, d1`, which overflows; `add d2, d2`, which does not; and `div e2, d0, d2` by zero. -/
def overflowOnce : Machine Window where
  core := { d := .ofFn fun n => if n.val = 0 then 0x7FFFFFFF else if n.val = 1 then 1 else 0 }
  bus :=
    let code : List Byte := [0x42, 0x10, 0x42, 0x22, 0x4B, 0x20, 0x01, 0x22]
    { base := 0, size := 64, bytes := .putAll .empty 0 code }

theorem status_flags_stick_once :
    (overflowOnce.after .v16 2).core.psw = 0x28000000 ∧
      ((overflowOnce.after .v16 3).core.flag .sav = (overflowOnce.after .v16 2).core.flag .sav) ∧
      ((overflowOnce.after .v16 1).core.flag .sv = true →
        (overflowOnce.after .v16 3).core.flag .sv = true) ∧
      ∀ k ≤ 3, (overflowOnce.after .v16 k).core.flag .v = true →
        (overflowOnce.after .v16 k).core.flag .sv = true := by
  have hrun : ∀ k < 3, ((overflowOnce.after .v16 k).step .v16).2 = .done ∧
      ((overflowOnce.after .v16 k).instruction? .v16).all (·.keepsSticky) = true := by
    decide +kernel
  have hdivide : ((overflowOnce.after .v16 2).instruction? .v16).map (·.row.flags) =
      some .overflow := by decide +kernel
  obtain ⟨i, hi, hflags⟩ := Option.map_eq_some_iff.1 hdivide
  obtain ⟨hstep, hafter⟩ := status_flags_stick (β := Window) .v16
  obtain ⟨hgrows, hrecorded⟩ := hafter overflowOnce 3 (fun k hk => (hrun k hk).1)
    fun k hk i hi => by simpa [hi] using (hrun k hk).2
  obtain ⟨-, hsome, -⟩ := hstep _ i hi (hrun 2 (by omega)).1
  exact ⟨by decide +kernel, (hsome hflags).2, (hgrows 1 3 (by omega) (by omega)).1,
    hrecorded (by decide)⟩

end Tricore
