import Mathlib
import Tricore.Proofs.MemoryAccess

/-!
# Precise traps

Statements are executed one by one, and what they have done is not taken back when a later one
traps. So an instruction whose access fails leaves no trace only if its statements come in the right
order: nothing that can be seen is written before a statement that may trap (`Guarded`). Then a run
that traps has changed temporaries at most (`Guarded.still_of_trapped`).

Loads, stores and read-modify-write are made that way in every addressing mode: the address is kept
in temporaries, then memory is accessed, and registers are written when no access is left
(`trapped_accesses_precise`).
-/

namespace Tricore

/-- The machines differ in their temporaries at most. -/
def Machine.Still {β : Type} (m m' : Machine β) : Prop :=
  ∃ temps, m' = { m with core := { m.core with temps } }

namespace Machine.Still

variable {β : Type} {m m₁ m₂ : Machine β}

theorem refl (m : Machine β) : m.Still m := ⟨m.core.temps, rfl⟩

theorem trans (h : m.Still m₁) (h' : m₁.Still m₂) : m.Still m₂ := by
  obtain ⟨_, rfl⟩ := h
  obtain ⟨temps, rfl⟩ := h'
  exact ⟨temps, rfl⟩

end Machine.Still

/-! ## Statements -/

namespace Stmt

/-- The statement does not trap, and the one after it is next. -/
def Sure (stmt : Stmt) : Prop :=
  ∀ (pc : Address) (m : Machine Window), (stmt.exec pc m).2 = .next

/-- The statement writes temporaries at most. -/
def Private (stmt : Stmt) : Prop :=
  ∀ (pc : Address) (m : Machine Window), m.Still (stmt.exec pc m).1

/-- Where the statement traps, it has done nothing. -/
def Whole (stmt : Stmt) : Prop :=
  ∀ (pc : Address) (m : Machine Window) (t : Trap),
    (stmt.exec pc m).2 = .trap t → (stmt.exec pc m).1 = m

theorem Sure.whole {stmt : Stmt} (h : stmt.Sure) : stmt.Whole := by
  intro pc m t ht
  rw [h pc m] at ht
  cases ht

/-- A window takes all of the bytes or none. -/
theorem whole_store (w : Width) (addr value : Expr) : (store w addr value).Whole := by
  intro pc m t ht
  cases ha : addr.eval m with
  | error trap => simp only [exec, ha]
  | ok a =>
    cases hv : value.eval m with
    | error trap => simp only [exec, ha, hv]
    | ok v =>
      simp only [exec, ha, hv] at ht ⊢
      by_cases h : m.bus.Admits (a.setWidth 32) w
      · obtain ⟨bus, hstore, -⟩ := Machine.store_of_admits v h
        rw [hstore] at ht
        cases ht
      · rw [Machine.store_of_not_admits v h]

theorem whole_setReg (r : Register) (e : Expr) : (setReg r e).Whole := by
  intro pc m t ht
  simp only [exec] at ht ⊢
  split at ht
  · cases ht
  · rfl

theorem whole_branch (cond : Expr) (yes no : Label) : (branch cond yes no).Whole := by
  intro pc m t ht
  simp only [exec] at ht ⊢
  split at ht
  · cases ht
  · rfl

theorem private_branch (cond : Expr) (yes no : Label) : (branch cond yes no).Private := by
  intro pc m
  simp only [exec]
  split
  · exact .refl m
  · exact .refl m

theorem private_mark (l : Label) : (mark l).Private := fun _ m => .refl m

theorem sure_mark (l : Label) : (mark l).Sure := fun _ _ => rfl

theorem sure_setReg (r x : Register) : (setReg r (.reg x)).Sure := fun _ _ => rfl

theorem private_temp (n : Nat) (value : Expr) :
    (setReg (Lift.tempFor n value).1 (Lift.tempFor n value).2).Private := by
  intro pc m
  have htemp : (Lift.tempFor n value).1 = .temp n ∨ (Lift.tempFor n value).1 = .tempWide n := by
    unfold Lift.tempFor
    cases value.width <;> simp
  simp only [exec]
  split
  · rcases htemp with htemp | htemp <;> rw [htemp] <;> exact ⟨_, rfl⟩
  · exact .refl m

end Stmt

/-! ## Runs -/

/-- Nothing that can be seen is written before a statement that may trap. -/
def Guarded : List Stmt → Prop
  | [] => True
  | stmt :: rest => stmt.Whole ∧ (stmt.Private ∨ ∀ s ∈ rest, s.Sure) ∧ Guarded rest

namespace Guarded

variable {before after code rest : List Stmt}

theorem of_suffix (h : Guarded code) (hs : rest <:+ code) : Guarded rest := by
  induction code with
  | nil => rwa [List.suffix_nil.1 hs]
  | cons stmt code ih =>
    rcases List.suffix_cons_iff.1 hs with rfl | hs
    · exact h
    · exact ih h.2.2 hs

theorem append (hb : ∀ stmt ∈ before, stmt.Whole ∧ stmt.Private) (ha : Guarded after) :
    Guarded (before ++ after) := by
  induction before with
  | nil => exact ha
  | cons stmt before ih =>
    obtain ⟨hwhole, hprivate⟩ := hb stmt List.mem_cons_self
    exact ⟨hwhole, .inl hprivate, ih fun s hs => hb s (List.mem_cons_of_mem _ hs)⟩

theorem of_sure (h : ∀ stmt ∈ code, stmt.Sure) : Guarded code := by
  induction code with
  | nil => trivial
  | cons stmt code ih =>
    have hrest : ∀ s ∈ code, s.Sure := fun s hs => h s (List.mem_cons_of_mem _ hs)
    exact ⟨(h stmt List.mem_cons_self).whole, .inr hrest, ih hrest⟩

/-- A run that traps has changed temporaries at most. -/
theorem still_of_trapped {m m' : Machine Window} {pc : Address} {fuel : Nat} {t : Trap}
    (h : Guarded code) (hrun : m.run pc code fuel code = (m', .trapped t)) : m.Still m' := by
  -- Either there is nothing left that traps, or nothing to be seen has been written yet.
  let P (rest : List Stmt) (m₀ : Machine Window) : Prop :=
    Guarded rest ∧ ((∀ s ∈ rest, s.Sure) ∨ m.Still m₀)
  have hsure {stmt : Stmt} {rest : List Stmt} {m₀ m₁ : Machine Window} {after : Next}
      (hall : ∀ s ∈ stmt :: rest, s.Sure) (hx : stmt.exec pc m₀ = (m₁, after)) : after = .next := by
    have hnext := hall stmt List.mem_cons_self pc m₀
    rwa [hx] at hnext
  have hnext : ∀ stmt rest m₀ m₁, P (stmt :: rest) m₀ → stmt.exec pc m₀ = (m₁, .next) →
      P rest m₁ := by
    rintro stmt rest m₀ m₁ ⟨⟨-, hstmt, hrest⟩, hstate⟩ hx
    refine ⟨hrest, ?_⟩
    rcases hstate with hall | hstill
    · exact .inl fun s hs => hall s (List.mem_cons_of_mem _ hs)
    · rcases hstmt with hprivate | hall
      · have hstep := hprivate pc m₀
        rw [hx] at hstep
        exact .inr (hstill.trans hstep)
      · exact .inl hall
  have hgoto : ∀ stmt rest m₀ m₁ l found, P (stmt :: rest) m₀ →
      stmt.exec pc m₀ = (m₁, .goto l) → fromMark? l code = some found → P found m₁ := by
    rintro stmt rest m₀ m₁ l found ⟨-, hstate⟩ hx hfound
    refine ⟨h.of_suffix (fromMark?_suffix hfound), .inr ?_⟩
    rcases hstate with hall | hstill
    · cases hsure hall hx
    · rwa [Stmt.eq_of_exec_goto hx]
  obtain ⟨stmt, rest, m₀, ⟨⟨hwhole, -⟩, hstate⟩, htrap⟩ :=
    Machine.run_trapped hnext hgoto ⟨h, .inr (.refl m)⟩ hrun
  rcases hstate with hall | hstill
  · rcases htrap with hx | ⟨⟨l, hx⟩, -⟩
    · cases hsure hall hx
    · cases hsure hall hx
  · rcases htrap with hx | ⟨⟨l, hx⟩, -⟩
    · have hsame := hwhole pc m₀ t (congrArg Prod.snd hx)
      rw [hx] at hsame
      rwa [show m' = m₀ from hsame]
    · rwa [Stmt.eq_of_exec_goto hx]

end Guarded

/-! ## Emissions -/

namespace Lift

variable {α γ : Type} {Q : α → Prop} {R : γ → Prop} {s : Source}

/-- What is emitted writes temporaries at most, and what is returned has the property. -/
def Prepares (Q : α → Prop) (e : Emit α) : Prop := ∀ supply,
  (∀ stmt ∈ (e supply).2.1, stmt.Whole ∧ stmt.Private) ∧ Q (e supply).1

/-- Nothing that is emitted traps. -/
def EmitsSure (e : Emit α) : Prop := ∀ supply, ∀ stmt ∈ (e supply).2.1, stmt.Sure

/-- Whatever labels there are, the statements are guarded. -/
def EmitsGuarded (e : Emit α) : Prop := ∀ supply, Guarded (e supply).2.1

namespace Prepares

theorem pure {a : α} (h : Q a) : Prepares Q (Pure.pure a : Emit α) := fun _ =>
  ⟨fun _ hs => absurd hs List.not_mem_nil, h⟩

theorem bind {x : Emit α} {f : α → Emit γ} (hx : Prepares Q x) (hf : ∀ a, Q a → Prepares R (f a)) :
    Prepares R (x >>= f) := by
  intro supply
  obtain ⟨hfirst, ha⟩ := hx supply
  obtain ⟨hrest, hc⟩ := hf _ ha (x supply).2.2
  refine ⟨fun stmt hs => ?_, hc⟩
  rcases List.mem_append.1 hs with hs | hs
  · exact hfirst stmt hs
  · exact hrest stmt hs

/-- A temporary is read as a register. -/
theorem temp {v : Expr} : Prepares (fun e => ∃ r, e = .reg r) (temp v) := by
  refine fun supply => ⟨fun stmt hs => ?_, _, rfl⟩
  rw [List.mem_singleton.1 hs]
  exact ⟨Stmt.whole_setReg _ _, Stmt.private_temp _ _⟩

theorem newLabel : Prepares (fun _ => True) newLabel := fun _ =>
  ⟨fun _ hs => absurd hs List.not_mem_nil, trivial⟩

theorem emit {stmt : Stmt} (hw : stmt.Whole) (hp : stmt.Private) :
    Prepares (fun _ => True) (emit stmt) := fun _ =>
  ⟨fun _ hs => List.mem_singleton.1 hs ▸ ⟨hw, hp⟩, trivial⟩

/-- The updates of an addressing mode do not trap. -/
theorem access (p : Place) : Prepares (fun a => ∀ stmt ∈ a.updates, stmt.Sure) (access p) := by
  have hone {stmt : Stmt} (h : stmt.Sure) : ∀ s ∈ [stmt], s.Sure := fun s hs =>
    List.mem_singleton.1 hs ▸ h
  cases p with
  | absolute | based => exact pure fun _ hs => absurd hs List.not_mem_nil
  | postIncrement | preIncrement =>
    refine bind temp ?_
    rintro _ ⟨r, rfl⟩
    exact pure (hone fun _ _ => rfl)
  | bitReverse => exact bind temp fun _ _ => pure (hone fun _ _ => rfl)
  | circular =>
    refine bind temp fun _ _ => bind temp ?_
    rintro _ ⟨length, rfl⟩
    refine bind temp fun _ _ => bind temp fun _ _ => bind temp ?_
    rintro _ ⟨stepped, rfl⟩
    exact pure (hone fun _ _ => rfl)

end Prepares

namespace EmitsSure

theorem emitAll {stmts : List Stmt} (h : ∀ stmt ∈ stmts, stmt.Sure) : EmitsSure (emitAll stmts) :=
  fun _ => h

theorem emit_bind {stmt : Stmt} {f : Unit → Emit γ} (h : stmt.Sure) (hf : EmitsSure (f ())) :
    EmitsSure (emit stmt >>= f) := by
  intro supply s hs
  rcases List.mem_cons.1 hs with rfl | hs
  · exact h
  · exact hf supply s hs

end EmitsSure

namespace EmitsGuarded

theorem bind {x : Emit α} {f : α → Emit γ} (hx : Prepares Q x)
    (hf : ∀ a, Q a → EmitsGuarded (f a)) : EmitsGuarded (x >>= f) := fun supply =>
  .append (hx supply).1 (hf _ (hx supply).2 _)

/-- The last statement that may trap comes before what does not. -/
theorem emit_bind {stmt : Stmt} {f : Unit → Emit γ} (h : stmt.Whole) (hf : EmitsSure (f ())) :
    EmitsGuarded (emit stmt >>= f) := fun supply =>
  ⟨h, .inr (hf supply), .of_sure (hf supply)⟩

end EmitsGuarded

/-! ## Accesses to data -/

theorem guarded_load (h : s.Fits [.register, .place]) {kind : Access} :
    Plans (Plan.load kind s) EmitsGuarded :=
  (h.reg 0 rfl).plans fun _ _ => (h.place 1 rfl).plans fun _ _ =>
    .emitting (.bind (.access _) fun _ hu => .emit_bind (Stmt.whole_setReg _ _) (.emitAll hu))

theorem guarded_store (h : s.Fits [.place, .value]) {kind : Access} :
    Plans (Plan.store kind s) EmitsGuarded :=
  (h.place 0 rfl).plans fun _ _ => (h.value 1 (.inl rfl)).plans fun _ _ =>
    .emitting (.bind (.access _) fun _ hu => .emit_bind (Stmt.whole_store _ _ _) (.emitAll hu))

theorem guarded_storeBit (h : s.Fits [.place, .immediate, .immediate]) :
    Plans (Plan.storeBit s) EmitsGuarded :=
  (h.place 0 rfl).plans fun _ _ => (h.count 1 rfl).plans fun _ _ => (h.imm 2 rfl).plans fun _ _ =>
    .emitting (.bind (.access _) fun _ hu => .emit_bind (Stmt.whole_store _ _ _) (.emitAll hu))

theorem guarded_loadModifyStore (h : s.Fits [.place, .pair]) :
    Plans (Plan.loadModifyStore s) EmitsGuarded :=
  (h.place 0 rfl).plans fun _ _ => (h.pair 1 rfl).plans fun _ _ =>
    .emitting (.bind (.access _) fun _ hu => .bind .temp fun _ _ =>
      .emit_bind (Stmt.whole_store _ _ _) (.emitAll hu))

/-- A word in memory is replaced, and what was there goes to a register. -/
def swapping (p : Place) (r : Register) (new : Expr → Expr) : Emit Unit := do
  let a ← access p
  let addr ← temp a.addr
  let old ← temp (.load .word addr)
  store .word addr (new old)
  set r old
  emitAll a.updates

/-- What was there is kept in a temporary before it is overwritten, and reaches its register
last. -/
theorem guarded_swapping (p : Place) (r : Register) (new : Expr → Expr) :
    EmitsGuarded (swapping p r new) := by
  refine .bind (.access p) fun _ hu => .bind .temp fun _ _ => .bind .temp ?_
  rintro _ ⟨old, rfl⟩
  exact .emit_bind (Stmt.whole_store _ _ _) (.emit_bind (Stmt.sure_setReg _ _) (.emitAll hu))

theorem guarded_swap (h : s.Fits [.place, .register]) : Plans (Plan.swap s) EmitsGuarded :=
  (h.place 0 rfl).plans fun p _ => (h.reg 1 rfl).plans fun r _ =>
    .emitting (guarded_swapping p r fun _ => .reg r)

theorem guarded_swapMasked (h : s.Fits [.place, .pair]) :
    Plans (Plan.swapMasked s) EmitsGuarded := by
  refine (h.place 0 rfl).plans fun p _ => (h.pair 1 rfl).plans ?_
  rintro ⟨value, mask⟩ -
  exact .emitting (guarded_swapping p value fun old => masked old (.reg value) (.reg mask))

theorem guarded_compareSwap (h : s.Fits [.place, .pair]) :
    Plans (Plan.compareSwap s) EmitsGuarded := by
  refine (h.place 0 rfl).plans fun _ _ => (h.pair 1 rfl).plans fun _ _ => .emitting ?_
  refine .bind (.access _) fun _ hu => .bind .temp fun _ _ => .bind .temp ?_
  rintro _ ⟨old, rfl⟩
  refine .bind .newLabel fun hit _ => .bind .newLabel fun miss _ => ?_
  refine .bind (.emit (Stmt.whole_branch _ _ _) (Stmt.private_branch _ _ _)) fun _ _ => ?_
  refine .bind (.emit (Stmt.sure_mark hit).whole (Stmt.private_mark hit)) fun _ _ => ?_
  exact .emit_bind (Stmt.whole_store _ _ _)
    (.emit_bind (Stmt.sure_mark miss) (.emit_bind (Stmt.sure_setReg _ _) (.emitAll hu)))

end Lift

/-- The instructions that access data, by what they do. -/
def Action.accessName? : Action → Option String
  | load kind => some ("ld." ++ kind.suffix)
  | store kind => some ("st." ++ kind.suffix)
  | storeBit => some "st.t"
  | loadModifyStore => some "ldmst"
  | swap => some "swap.w"
  | swapMasked => some "swapmsk.w"
  | compareSwap => some "cmpswap.w"
  | _ => none

theorem Opcode.accessName_rows : ∀ g ∈ table, ∀ r ∈ g.rows,
    ∀ name ∈ r.action.accessName?, r.mnemonic = name := by
  decide +kernel

theorem Lift.guarded_of_accessName {s : Source} {a : Action} {name : String}
    (h : s.Fits (a.signature s.arity)) (ha : a.accessName? = some name) :
    Plans (plan s a) EmitsGuarded := by
  cases a with
  | load => exact guarded_load h
  | store => exact guarded_store h
  | storeBit => exact guarded_storeBit h
  | loadModifyStore => exact guarded_loadModifyStore h
  | swap => exact guarded_swap h
  | swapMasked => exact guarded_swapMasked h
  | compareSwap => exact guarded_compareSwap h
  | _ => cases ha

/-- An instruction with guarded statements that traps has done nothing but move on. -/
theorem Machine.still_of_guarded {isa : Isa} {m : Machine Window} {i : Instruction} {t : Trap}
    (hi : m.instruction? isa = some i) (hplan : Lift.Plans i.plan Lift.EmitsGuarded)
    (ht : (m.step isa).2 = .trapped t) :
    ∃ temps, (m.step isa).1 = { m with core := { m.core with pc := i.next, temps } } := by
  obtain ⟨bytes, hf, hd⟩ := instruction?_eq_some.1 hi
  obtain ⟨e, hp, hguarded⟩ := hplan
  have hrun := step_of_plan hf hd hp
  rw [hrun] at ht
  obtain ⟨temps, hstill⟩ := (hguarded _).still_of_trapped (Prod.ext rfl ht)
  exact ⟨temps, (congrArg Prod.fst hrun).trans hstill⟩

/-- A load, a store or a read-modify-write that traps leaves memory and every register as they were,
with the program counter after the instruction. -/
theorem trapped_accesses_precise (isa : Isa) (m : Machine Window) {i : Instruction} {name : String}
    {t : Trap} (hi : m.instruction? isa = some i) (ha : i.row.action.accessName? = some name)
    (ht : (m.step isa).2 = .trapped t) :
    i.mnemonic = name ∧
      ∃ temps, (m.step isa).1 = { m with core := { m.core with pc := i.next, temps } } := by
  obtain ⟨bytes, -, hd⟩ := Machine.instruction?_eq_some.1 hi
  obtain ⟨enc, -, -, -, g, hg, hr, -⟩ := Instruction.of_decode hd
  refine ⟨Opcode.accessName_rows g hg _ hr name ha, Machine.still_of_guarded hi ?_ ht⟩
  exact Lift.guarded_of_accessName (Instruction.fits hd).1 ha

/-- `cmpswap.w [a4+]4, e2` at an odd address. -/
def oddSwap : Machine Window where
  core := ({} : Core).write (.a 4) 17
  bus := { base := 0, size := 32, bytes := .putAll .empty 0 [0x49, 0x42, 0xC4, 0x00] }

theorem trapped_accesses_precise_cmpswap :
    (oddSwap.step .v16).2 = .trapped (.unaligned 17) ∧ ∃ temps,
      (oddSwap.step .v16).1 = { oddSwap with core := { oddSwap.core with pc := 4, temps } } := by
  obtain ⟨i, hi, ha, hnext⟩ : ∃ i, oddSwap.instruction? .v16 = some i ∧
      i.row.action.accessName? = some "cmpswap.w" ∧ i.next = 4 :=
    ⟨_, rfl, by decide +kernel, by decide +kernel⟩
  have htrap : (oddSwap.step .v16).2 = .trapped (.unaligned 17) := by decide +kernel
  obtain ⟨-, temps, hstill⟩ := trapped_accesses_precise .v16 oddSwap hi ha htrap
  rw [hnext] at hstill
  exact ⟨htrap, temps, hstill⟩

end Tricore
