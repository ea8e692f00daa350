import Mathlib
import Tricore.Proofs.Forward
import Tricore.Proofs.WellTyped

/-!
# Layouts of lifted code

The statements of an instruction are laid out in one of four ways (`Layout`): without labels, as a
jump, as a two-way branch after other statements, or with a part that is skipped. Only the code of
the two in the middle depends on the labels that the host has; no layout depends on how many labels
have been taken, other than in the names of its own (`Instruction.laidOut`). Without a host, all of
them branch forward only (`Layout.forward`).
-/

namespace Tricore

/-- None of the statements uses a label. -/
def Unlabelled (code : List Stmt) : Prop := ∀ stmt ∈ code, stmt.usesLabel = false

namespace Unlabelled

variable {code : List Stmt}

theorem mark_not_mem (h : Unlabelled code) (l : Label) :
    .mark l ∉ code := fun hmem => by cases h _ hmem

theorem targets (h : Unlabelled code) {stmt : Stmt}
    (hs : stmt ∈ code) : stmt.targets = [] := by
  have hl := h stmt hs
  cases stmt with
  | branch | goto => cases hl
  | _ => rfl

theorem forward (h : Unlabelled code) : Forward code := by
  intro k stmt hk l hl
  rw [h.targets (List.mem_of_getElem? hk)] at hl
  cases hl

end Unlabelled

namespace Lift

/-- Go to an address, by its label if it has one. -/
def jumpCode (labelAt? : Address → Option Label) (target : Address) : List Stmt :=
  match labelAt? target with
  | some l => [.goto l]
  | none => [.jump (.word target)]

/-- Go to `target` if the condition holds, else to `next`. New labels are numbered from `n` on. -/
def branchCode (labelAt? : Address → Option Label) (n : Nat) (cond : Expr)
    (target next : Address) : List Stmt :=
  match labelAt? target, labelAt? next with
  | some taken, some fall => [.branch cond taken fall]
  | some taken, none => [.branch cond taken ⟨n⟩, .mark ⟨n⟩]
  | none, some fall => [.branch cond ⟨n⟩ fall, .mark ⟨n⟩, .jump (.word target)]
  | none, none =>
    [.branch cond ⟨n⟩ ⟨n + 1⟩, .mark ⟨n⟩, .jump (.word target), .mark ⟨n + 1⟩]

/-- Execute `body` if the condition holds, and `after` in any case. -/
def skipCode (n : Nat) (cond : Expr) (body after : List Stmt) : List Stmt :=
  .branch cond ⟨n⟩ ⟨n + 1⟩ :: .mark ⟨n⟩ :: (body ++ .mark ⟨n + 1⟩ :: after)

/-- How the statements of an instruction are laid out. -/
inductive Layout where
  | plain (code : List Stmt)
  | jump (target : Address)
  | branch (before : List Stmt) (cond : Expr) (target : Address)
  | skip (before : List Stmt) (cond : Expr) (body after : List Stmt)

namespace Layout

/-- The statements of an instruction that `next` follows, with new labels from `n` on. -/
def code (next : Address) (labelAt? : Address → Option Label) (n : Nat) : Layout → List Stmt
  | plain code => code
  | jump target => jumpCode labelAt? target
  | branch before cond target => before ++ branchCode labelAt? n cond target next
  | skip before cond body after => before ++ skipCode n cond body after

/-- The statements that come with the layout use no labels, and those before a two-way branch leave
the program counter alone. -/
def Sound : Layout → Prop
  | plain code => Unlabelled code
  | jump _ => True
  | branch before _ _ => Unlabelled before ∧ ∀ stmt ∈ before, .pc ∉ stmt.written
  | skip before _ body after => Unlabelled before ∧ Unlabelled body ∧ Unlabelled after

end Layout

/-- The emission has the layout, whatever labels there are. -/
structure LaidOut (next : Address) (l : Layout) (e : Emit Unit) : Prop where
  sound : l.Sound
  stmts : ∀ labelAt? n, (e ⟨0, n, labelAt?⟩).2.1 = l.code next labelAt? n
  labels_le : ∀ labelAt? n, n ≤ (e ⟨0, n, labelAt?⟩).2.2.labels

/-! ## The families with labels -/

theorem laidOut_of_types {next : Address} {e : Emit Unit} {Q : List Register → Unit → Prop}
    (h : Types false [] Q e) : ∃ l, LaidOut next l e := by
  have hun := (h ⟨0, 0, fun _ => none⟩ (by simp)).unlabelled rfl
  refine ⟨.plain (e ⟨0, 0, fun _ => none⟩).2.1, hun.stmts, fun labelAt? n => ?_, fun labelAt? n => ?_⟩
  · exact congrArg (·.2.1) (hun.relabel n labelAt?)
  · exact Nat.le_of_eq (congrArg (·.2.2.labels) (hun.relabel n labelAt?)).symm

theorem branchTo_eq (cond : Expr) (target next : Address) (supply : Supply) :
    (branchTo cond target next supply).2.1 =
      branchCode supply.labelAt? supply.labels cond target next ∧
    supply.labels ≤ (branchTo cond target next supply).2.2.labels := by
  unfold branchCode
  cases htaken : supply.labelAt? target <;> cases hfall : supply.labelAt? next <;>
    simp [branchTo, bind, pure, labelAt?, newLabel, emit, mark, htaken, hfall]
  omega

variable {s : Source}

/-- The plan is made, and what it emits has a layout. -/
abbrev PlansLayout (s : Source) (p : Plan) : Prop := Plans p fun e => ∃ l, LaidOut s.next l e

theorem layout_jump (h : s.Fits [.target]) : PlansLayout s (Plan.jump s) := by
  refine (h.target 0 rfl).plans fun target _ => .emitting ⟨.jump target, trivial, ?_, ?_⟩
  · intro known n
    unfold Layout.code jumpCode
    cases hl : known target <;> simp [jumpTo, bind, labelAt?, emit, hl]
  · intro known n
    cases hl : known target <;> simp [jumpTo, bind, labelAt?, emit, hl]

theorem laidOut_branchTo (cond : Expr) (target next : Address) :
    ∃ l, LaidOut next l (branchTo cond target next) := by
  refine ⟨.branch [] cond target, ⟨by simp [Unlabelled], by simp⟩, fun labelAt? n => ?_,
    fun labelAt? n => ?_⟩
  · exact (branchTo_eq cond target next ⟨0, n, labelAt?⟩).1
  · exact (branchTo_eq cond target next ⟨0, n, labelAt?⟩).2

/-- A test is kept in a temporary while its register is stepped. -/
theorem laidOut_branchTo_kept {r : Register} (hr : r.Ordinary) {op : CmpOp} {lhs rhs x : Expr}
    (target next : Address) :
    ∃ l, LaidOut next l (do
      let test ← temp (.compare op .word lhs rhs)
      set r x
      branchTo (isSet test) target next) := by
  let before : List Stmt :=
    [.setReg (.temp 0) (.zext .word (.compare op .word lhs rhs)), .setReg r x]
  have hpc : ∀ stmt ∈ before, .pc ∉ stmt.written := by
    intro stmt hs
    rcases List.mem_cons.1 hs with rfl | hs
    · simp [Stmt.written, Register.cells, Register.canonical]
    · obtain rfl := List.mem_singleton.1 hs
      exact hr.pc_not_mem
  refine ⟨.branch before (isSet (.reg (.temp 0))) target, ⟨?_, hpc⟩, fun labelAt? n => ?_,
    fun labelAt? n => ?_⟩
  · simp [Unlabelled, before, Stmt.usesLabel]
  · exact congrArg (before ++ ·)
      (branchTo_eq (isSet (.reg (.temp 0))) target next ⟨1, n, labelAt?⟩).1
  · exact (branchTo_eq (isSet (.reg (.temp 0))) target next ⟨1, n, labelAt?⟩).2

theorem layout_branch (h : s.Fits (if s.arity = 3 then [.value, .value, .target]
    else [.value, .target])) {c : Condition} : PlansLayout s (Plan.branch c s) := by
  unfold Plan.branch
  split at h
  · next h3 =>
    simp only [h3, if_true]
    refine (h.value 0 (.inl rfl)).plans fun lhs _ => (h.value 1 (.inl rfl)).plans fun rhs _ => ?_
    exact (h.target 2 rfl).plans fun target _ => .emitting (laidOut_branchTo ..)
  · simp only [show s.arity = 2 from h.arity, Nat.reduceEqDiff, if_false]
    have hzero : Reads (pure (.const .word 0) : Read Expr) fun _ => True := .ok trivial
    refine (h.value 0 (.inl rfl)).plans fun lhs _ => hzero.plans fun rhs _ => ?_
    exact (h.target 1 rfl).plans fun target _ => .emitting (laidOut_branchTo ..)

theorem layout_branchBit (h : s.Fits [.value, .immediate, .target]) {wanted : Bool} :
    PlansLayout s (Plan.branchBit wanted s) := by
  refine (h.value 0 (.inl rfl)).plans fun bit _ => (h.count 1 rfl).plans fun n _ => ?_
  exact (h.target 2 rfl).plans fun target _ => .emitting (laidOut_branchTo ..)

theorem layout_branchStep (h : s.Fits [.register, .value, .target]) {step : Word} :
    PlansLayout s (Plan.branchStep step s) := by
  refine (h.reg 0 rfl).plans fun r hr => (h.value 1 (.inl rfl)).plans fun rhs _ => ?_
  exact (h.target 2 rfl).plans fun target _ => .emitting (laidOut_branchTo_kept hr.2 target s.next)

theorem layout_loop (h : s.Fits [.register, .target]) : PlansLayout s (Plan.loop s) := by
  refine (h.reg 0 rfl).plans fun r hr => ?_
  exact (h.target 1 rfl).plans fun target _ => .emitting (laidOut_branchTo_kept hr.2 target s.next)

theorem layout_trapOn {f : Flag} : PlansLayout s (Plan.trapOn f) := by
  let raise : Stmt := .intrinsic .overflowTrap [] []
  refine .emitting ⟨.skip [] (.flag f) [raise] [], ⟨?_, ?_, ?_⟩, fun _ _ => rfl, fun _ n => ?_⟩
  · simp [Unlabelled]
  · simp [Unlabelled, raise, Stmt.usesLabel]
  · simp [Unlabelled]
  · exact Nat.le_add_right n 2

theorem layout_compareSwap {widths : Nat → Option Width} (hw : s.Sized widths)
    (h : s.Fits [.place, .pair]) :
    PlansLayout s (Plan.compareSwap s) := by
  refine (h.sizedPlace hw 0 rfl).plans fun place hp => ?_
  refine (h.pair 1 rfl).plans ?_
  rintro ⟨value, expected⟩ -
  refine .emitting ?_
  -- Neither the address nor the two temporaries that follow take labels.
  have haccess : Types false [] Addressed.Typed (access place) := types_access hp.1 hp.2
  have hat := haccess ⟨0, 0, fun _ => none⟩ (by simp)
  have hstmts := (hat.unlabelled rfl).stmts
  have hrelabel := (hat.unlabelled rfl).relabel
  have hupdates := hat.value.updates
  generalize access place ⟨0, 0, fun _ => none⟩ = first at hstmts hrelabel hupdates
  obtain ⟨a, stmts, ⟨temps, n₀, known₀⟩⟩ := first
  let addr := tempFor temps a.addr
  let old := tempFor (temps + 1) (.load .word (.reg addr.1))
  refine ⟨.skip (stmts ++ [.setReg addr.1 addr.2, .setReg old.1 old.2])
    (.compare .eq .word (.reg old.1) (.reg expected))
    [.store .word (.reg addr.1) (.reg value)] (.setReg value (.reg old.1) :: a.updates),
    ⟨?_, ?_, ?_⟩, fun known n => ?_, fun known n => ?_⟩
  · intro stmt hs
    rcases List.mem_append.1 hs with hs | hs
    · exact hstmts stmt hs
    · simp only [List.mem_cons, List.not_mem_nil, or_false] at hs
      rcases hs with rfl | rfl <;> rfl
  · simp [Unlabelled, Stmt.usesLabel]
  · intro stmt hs
    rcases List.mem_cons.1 hs with rfl | hs
    · rfl
    · exact (hupdates stmt hs).unlabelled
  · simp [bind, hrelabel, temp, newLabel, emit, mark, Lift.store, set, emitAll, Layout.code,
      skipCode, addr, old]
  · simp [bind, hrelabel, temp, newLabel, emit, mark, Lift.store, set, emitAll]
    omega

/-- A plan whose operands fit is made, and what it emits has a layout. -/
theorem plan_layout {a : Action} (h : s.Fits (a.signature s.arity)) (hw : s.Sized a.width?)
    (ha : a.addresses = true) : PlansLayout s (plan s a) := by
  have htypes := plan_types h hw ha
  cases a with
  | jump | loopForever => exact layout_jump h
  | branch => exact layout_branch h
  | branchBit => exact layout_branchBit h
  | branchStep => exact layout_branchStep h
  | loop => exact layout_loop h
  | compareSwap => exact layout_compareSwap hw h
  | trapOn => exact layout_trapOn
  | _ =>
    obtain ⟨e, hp, ht⟩ := htypes
    exact ⟨e, hp, laidOut_of_types ht⟩

/-! ## Labels go forward -/

/-- A label that is marked in the middle and nowhere else. -/
theorem marked_once (before after : List Stmt) {l : Label} (hb : .mark l ∉ before)
    (ha : .mark l ∉ after) (j : Nat) :
    (before ++ .mark l :: after)[j]? = some (.mark l) ↔ j = before.length := by
  constructor
  · intro hj
    rcases Nat.lt_trichotomy j before.length with hlt | heq | hgt
    · rw [List.getElem?_append_left hlt] at hj
      exact absurd (List.mem_of_getElem? hj) hb
    · exact heq
    · obtain ⟨d, rfl⟩ : ∃ d, j = before.length + (d + 1) := ⟨j - before.length - 1, by omega⟩
      rw [List.getElem?_append_right (by omega), Nat.add_sub_cancel_left] at hj
      exact absurd (List.mem_of_getElem? (by simpa using hj)) ha
  · rintro rfl
    simp

theorem forward_skip {before body after : List Stmt} (hbefore : Unlabelled before)
    (hbody : Unlabelled body) (hafter : Unlabelled after) (n : Nat) (cond : Expr) :
    Forward (before ++ skipCode n cond body after) := by
  have hn : (⟨n⟩ : Label) ≠ ⟨n + 1⟩ := by simp
  intro k stmt hk l hl
  -- Only the branch goes anywhere.
  have hat : k = before.length ∧ stmt = .branch cond ⟨n⟩ ⟨n + 1⟩ := by
    rcases Nat.lt_trichotomy k before.length with hlt | rfl | hgt
    · rw [List.getElem?_append_left hlt] at hk
      rw [hbefore.targets (List.mem_of_getElem? hk)] at hl
      cases hl
    · exact ⟨rfl, by simpa [skipCode] using hk.symm⟩
    · obtain ⟨d, rfl⟩ : ∃ d, k = before.length + (d + 1) := ⟨k - before.length - 1, by omega⟩
      rw [List.getElem?_append_right (by omega), Nat.add_sub_cancel_left] at hk
      have hmem : stmt ∈ .mark ⟨n⟩ :: (body ++ .mark ⟨n + 1⟩ :: after) :=
        List.mem_of_getElem? (by simpa [skipCode] using hk)
      simp only [List.mem_cons, List.mem_append] at hmem
      rcases hmem with rfl | hs | rfl | hs
      · cases hl
      · rw [hbody.targets hs] at hl; cases hl
      · cases hl
      · rw [hafter.targets hs] at hl; cases hl
  obtain ⟨rfl, rfl⟩ := hat
  simp only [Stmt.targets, List.mem_cons, List.not_mem_nil, or_false] at hl
  rcases hl with rfl | rfl
  · refine ⟨before.length + 1, by omega, fun j' => ?_⟩
    have h := marked_once (before ++ [.branch cond ⟨n⟩ ⟨n + 1⟩])
      (body ++ .mark ⟨n + 1⟩ :: after) (l := ⟨n⟩) (by simp [hbefore.mark_not_mem])
      (by simp [hbody.mark_not_mem, hafter.mark_not_mem, hn]) j'
    simpa [skipCode] using h
  · refine ⟨before.length + (body.length + 1 + 1), by omega, fun j' => ?_⟩
    have h := marked_once (before ++ .branch cond ⟨n⟩ ⟨n + 1⟩ :: .mark ⟨n⟩ :: body) after
      (l := ⟨n + 1⟩) (by simp [hbefore.mark_not_mem, hbody.mark_not_mem, hn.symm]) (hafter.mark_not_mem _) j'
    simpa [skipCode] using h

/-- Without a host, the labels of an instruction are its own, and it branches forward only. -/
theorem Layout.forward {l : Layout} (h : l.Sound) (next : Address) (n : Nat) :
    Forward (l.code next (fun _ => none) n) := by
  cases l with
  | plain code => exact Unlabelled.forward h
  | jump target => exact Unlabelled.forward (by simp [Unlabelled, code, jumpCode, Stmt.usesLabel])
  | branch before cond target =>
    have hjump : Unlabelled [.jump (.word target)] := by simp [Unlabelled, Stmt.usesLabel]
    exact forward_skip h.1 hjump (by simp [Unlabelled]) n cond
  | skip before cond body after => exact forward_skip h.1 h.2.1 h.2.2 n cond

end Lift

/-- A decoded instruction is lifted with one layout into every trace, and takes new labels. -/
theorem Instruction.laidOut {isa : Isa} {bytes : List Byte} {addr : Address} {i : Instruction}
    (h : decode isa bytes addr = .ok i) :
    ∃ l : Lift.Layout, l.Sound ∧ ∀ t : Trace, ∃ n, t.nextLabel ≤ n ∧
      i.lift t = .ok { t with
        stmts := t.stmts ++ l.code i.next t.labelAt? t.nextLabel
        nextLabel := n } := by
  obtain ⟨hsized, haddresses⟩ := sized h
  obtain ⟨e, hp, l, hl⟩ := Lift.plan_layout (fits h).1 hsized haddresses
  refine ⟨l, hl.sound, fun t => ⟨_, hl.labels_le t.labelAt? t.nextLabel, ?_⟩⟩
  have hlift := lift_of_plan hp t
  have hstmts : (e (.of t)).2.1 = l.code i.next t.labelAt? t.nextLabel :=
    hl.stmts t.labelAt? t.nextLabel
  rw [hstmts] at hlift
  exact hlift

/-- A decoded instruction that is lifted into an empty trace branches forward only, to labels of its
own that it marks once. Executing it therefore ends, in as many steps as there are statements or
fewer, executes each statement at most once, and does not branch out of its statements. -/
theorem lifted_code_ends {isa : Isa} {bytes : List Byte} {addr : Address} {i : Instruction}
    (h : Instruction.decode isa bytes addr = .ok i) :
    ∃ t, i.lift .empty = .ok t ∧ Forward t.stmts ∧
      ∀ {β : Type} [Bus β] (m : Machine β) (pc : Address), ∃ result log,
        (∀ steps, t.stmts.length ≤ steps →
          m.execute pc steps t.stmts = result ∧
          m.executeLogged pc steps t.stmts = (result, log)) ∧
        result.2 ≠ .unfinished ∧ (∀ a, result.2 ≠ .trapped (.outside a)) ∧
        log.Pairwise (· < ·) ∧ ∀ k ∈ log, k < t.stmts.length := by
  obtain ⟨l, hsound, hlift⟩ := Instruction.laidOut h
  obtain ⟨n, -, hlift⟩ := hlift .empty
  refine ⟨_, hlift, l.forward hsound i.next 0, ?_⟩
  intro β _ m pc
  have hforward := l.forward hsound i.next 0
  obtain ⟨⟨result, log⟩, hends, hr⟩ := hforward.executeLogged_ends pc m
  refine ⟨result, log, fun steps hsteps => ⟨?_, hr steps hsteps⟩, hends.finished, hends.inside,
    hends.once, fun k hk => (hends.within k hk).2⟩
  rw [← Machine.executeLogged_fst]
  exact congrArg Prod.fst (hr steps hsteps)

/-- `cmpswap.w`, which skips its store where the comparison fails. -/
theorem lifted_code_ends_cmpswap : ∃ i t,
    Instruction.decode .v16 [0x49, 0x42, 0xC4, 0x00] 0x100 = .ok i ∧ i.lift .empty = .ok t ∧
      t.stmts.map Stmt.targets = [[], [], [], [⟨0⟩, ⟨1⟩], [], [], [], [], []] ∧
      Forward t.stmts ∧
      ∀ {β : Type} [Bus β] (m : Machine β), (m.execute 0x100 9 t.stmts).2 ≠ .unfinished := by
  obtain ⟨i, hi, htargets⟩ : ∃ i,
      Instruction.decode .v16 [0x49, 0x42, 0xC4, 0x00] 0x100 = .ok i ∧
        ((i.lift .empty).toOption.map fun t => t.stmts.map Stmt.targets) =
          some [[], [], [], [⟨0⟩, ⟨1⟩], [], [], [], [], []] :=
    ⟨_, rfl, by decide +kernel⟩
  obtain ⟨t, hl, hforward, hends⟩ := lifted_code_ends hi
  have hshape : t.stmts.map Stmt.targets = [[], [], [], [⟨0⟩, ⟨1⟩], [], [], [], [], []] := by
    rw [hl] at htargets
    exact Option.some.inj htargets
  have hlength : t.stmts.length = 9 := by simpa using congrArg List.length hshape
  refine ⟨i, t, hi, hl, hshape, hforward, ?_⟩
  intro β _ m
  obtain ⟨result, log, hr, hfinished, -⟩ := hends m 0x100
  rw [(hr 9 (by omega)).1]
  exact hfinished

end Tricore
