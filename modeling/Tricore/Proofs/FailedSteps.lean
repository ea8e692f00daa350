import Mathlib
import Tricore.Memory.Window
import Tricore.Proofs.Layout
import Tricore.Proofs.Successor

/-!
# Failed steps

How far a step has come when it traps (`failed_step`). A byte that cannot be fetched, or bytes that
do not decode, leave the machine as it was, and no statement traps in the way that they do: whatever
decodes can be lifted, and no access to data fails as the fetch of one byte does. Every other trap
comes from a statement and leaves the program counter after the instruction.

A trap that names an instruction names the one that raised it, unless a context was to be restored
and none is saved: that one names the program counter, which is after the instruction
(`traps_name_instruction`).

What is said of the program counter rests on the order of statements. Once a statement of an
instruction may have moved the program counter, only marks follow (`LeavesLast`), and a statement
that traps has not moved it (`Stmt.pc_exec_of_trap`).
-/

namespace Tricore

/-! ## Where a statement traps -/

namespace Machine

variable {β : Type} [Bus β] {m : Machine β} {t : Trap}

theorem pc_intrinsic_of_trap {pc : Address} {i : Intrinsic} {outputs : List Register}
    {args : List Value} (h : (m.intrinsic pc i outputs args).2 = some t) :
    (m.intrinsic pc i outputs args).1.core.pc = m.core.pc := by
  cases i with
  | restoreUpperContext | restoreLowerContext =>
    exact Core.pc_eq_of_read (read_restore trivial (by decide))
  | storeUpperContext | storeLowerContext => exact congrArg Core.pc core_storeRegisters
  | loadUpperContext | loadLowerContext =>
    exact Core.pc_eq_of_read
      (read_loadRegisters trivial (Core.not_mem_cells_of_layout (by decide)))
  | saveUpperContext | saveLowerContext | bisr | mfcr | mtcr | enableInterrupts
  | disableInterrupts | disableInterruptsSaving | restoreInterrupts | dsync | isync | wait
  | cacheWriteback | cacheWritebackInvalidate | cacheInvalidate | tlbDemap | tlbFlushA | tlbFlushB
  | tlbProbeA | tlbProbeI | tlbMap | bitReverseStep | parity | bmerge | bsplit => cases h
  -- The others do nothing but trap.
  | _ => rfl

end Machine

namespace Stmt

variable {β : Type} [Bus β] {m m' : Machine β} {t : Trap} {pc : Address} {stmt : Stmt} {l : Label}

/-- A statement that traps has not moved the program counter. -/
theorem pc_exec_of_trap (h : (stmt.exec pc m).2 = .trap t) :
    (stmt.exec pc m).1.core.pc = m.core.pc := by
  cases stmt with
  | setReg _ e | setFlag _ e | jump e | call e | ret e | branch e =>
    cases he : e.eval m with
    | ok v => simp only [exec, he] at h; cases h
    | error trap => simp only [exec, he]
  | store w addr value =>
    have hread : ((store w addr value).exec pc m).1.core.read .pc = m.core.read .pc :=
      read_exec trivial (by simp) (by simp [written])
    exact Core.pc_eq_of_read hread
  | intrinsic i outputs inputs =>
    cases hargs : Expr.evalList m inputs with
    | error trap => simp only [exec, hargs]
    | ok args =>
      simp only [exec, hargs] at h ⊢
      exact Machine.pc_intrinsic_of_trap (Next.trap_of_ofTrap? h)
  | goto | mark | nop | undefined => rfl

/-- A statement that branches does nothing else. -/
theorem eq_of_exec_goto (h : stmt.exec pc m = (m', .goto l)) : m' = m := by
  cases stmt with
  | goto => cases h; rfl
  | branch cond yes no =>
    simp only [exec] at h
    split at h
    · cases h; rfl
    · cases h
  | _ => exact absurd (congrArg Prod.snd h) (exec_straight rfl l)

end Stmt

/-! ## Where a run traps -/

namespace Machine

variable {β : Type} [Bus β] {m m' : Machine β} {t : Trap} {pc : Address} {code rest : List Stmt}
  {fuel : Nat}

/-- A run that traps has come to a statement that traps, or that branches to the outside. What holds
of the statements left and the machine from one to the next holds there. -/
theorem run_trapped {P : List Stmt → Machine β → Prop}
    (hnext : ∀ stmt rest m m', P (stmt :: rest) m → stmt.exec pc m = (m', .next) → P rest m')
    (hgoto : ∀ stmt rest m m' l found, P (stmt :: rest) m → stmt.exec pc m = (m', .goto l) →
      fromMark? l code = some found → P found m')
    (hm : P rest m) (h : run pc code fuel rest m = (m', .trapped t)) :
    ∃ stmt rest m₀, P (stmt :: rest) m₀ ∧
      (stmt.exec pc m₀ = (m', .trap t) ∨
        (∃ l, stmt.exec pc m₀ = (m', .goto l)) ∧ t = .outside pc) := by
  fun_induction run pc code fuel rest m with
  | case1 | case2 => cases h
  | case3 fuel stmt rest m m₁ hx ih => exact ih (hnext stmt rest m m₁ hm hx) h
  | case4 fuel stmt rest m m₁ t₁ hx =>
    cases h
    exact ⟨stmt, rest, m, hm, .inl hx⟩
  | case5 fuel stmt rest m m₁ l hx found hl ih =>
    exact ih (hgoto stmt rest m m₁ l found hm hx hl) h
  | case6 fuel stmt rest m m₁ l hx hl =>
    cases h
    exact ⟨stmt, rest, m, hm, .inr ⟨⟨l, hx⟩, rfl⟩⟩

/-- The traps of a run are those of its statements, and that of a label it does not find. -/
theorem raised_of_run {Q : β → Prop} (hlast : Lasting Q) (hQ : Q m.bus)
    (h : run pc code fuel rest m = (m', .trapped t)) :
    t.Raised Q pc m'.core.pc ∨ t = .outside pc := by
  have hkeeps {stmt : Stmt} {m m' : Machine β} {after : Next} (hQ : Q m.bus)
      (hx : stmt.exec pc m = (m', after)) : Q m'.bus := by
    have hkept : Q (stmt.exec pc m).1.bus := Stmt.keeps_exec hlast hQ
    rwa [hx] at hkept
  obtain ⟨stmt, -, m₀, hQ, hx | ⟨-, ht⟩⟩ := run_trapped (P := fun _ m => Q m.bus)
    (fun _ _ _ _ hQ hx => hkeeps hQ hx) (fun _ _ _ _ _ _ hQ hx _ => hkeeps hQ hx) hQ h
  · have hpc := Stmt.pc_exec_of_trap (congrArg Prod.snd hx)
    rw [hx] at hpc
    rw [hpc]
    exact .inl (Stmt.raised_of_exec hlast hQ (congrArg Prod.snd hx))
  · exact .inr ht

end Machine

/-- All of the statements are marks. -/
def OnlyMarks (code : List Stmt) : Prop := ∀ stmt ∈ code, ∃ l, stmt = .mark l

/-- Once a statement may have moved the program counter, only marks follow. -/
def LeavesLast : List Stmt → Prop
  | [] => True
  | stmt :: rest => (.pc ∈ stmt.written → OnlyMarks rest) ∧ LeavesLast rest

namespace LeavesLast

variable {before after code rest : List Stmt}

theorem of_suffix (h : LeavesLast code) (hs : rest <:+ code) : LeavesLast rest := by
  induction code with
  | nil => rwa [List.suffix_nil.1 hs]
  | cons stmt code ih =>
    rcases List.suffix_cons_iff.1 hs with rfl | hs
    · exact h
    · exact ih h.2 hs

theorem append (hb : ∀ stmt ∈ before, .pc ∉ stmt.written) (ha : LeavesLast after) :
    LeavesLast (before ++ after) := by
  induction before with
  | nil => exact ha
  | cons stmt before ih =>
    refine ⟨fun hw => absurd hw (hb stmt List.mem_cons_self), ih fun s hs => ?_⟩
    exact hb s (List.mem_cons_of_mem _ hs)

theorem of_still (h : ∀ stmt ∈ code, .pc ∉ stmt.written) : LeavesLast code := by
  rw [← List.append_nil code]
  exact append h trivial

/-- A run that traps leaves the program counter where it was. -/
theorem pc_run_of_trapped {β : Type} [Bus β] {m m' : Machine β} {pc : Address} {fuel : Nat}
    {t : Trap} (h : LeavesLast code) (hrun : m.run pc code fuel code = (m', .trapped t)) :
    m'.core.pc = m.core.pc := by
  -- Either the program counter has not moved yet, or there is nothing left that traps.
  let P (rest : List Stmt) (m' : Machine β) : Prop :=
    LeavesLast rest ∧ (OnlyMarks rest ∨ m'.core.pc = m.core.pc)
  have hmark {stmt : Stmt} {rest : List Stmt} {m₀ m₁ : Machine β} {after : Next}
      (hmarks : OnlyMarks (stmt :: rest)) (hx : stmt.exec pc m₀ = (m₁, after)) : after = .next := by
    obtain ⟨l, rfl⟩ := hmarks stmt List.mem_cons_self
    cases hx
    rfl
  have hnext : ∀ stmt rest m₀ m₁, P (stmt :: rest) m₀ → stmt.exec pc m₀ = (m₁, .next) →
      P rest m₁ := by
    rintro stmt rest m₀ m₁ ⟨hlast, hstate⟩ hx
    refine ⟨hlast.2, ?_⟩
    rcases hstate with hmarks | hpc
    · exact .inl fun s hs => hmarks s (List.mem_cons_of_mem _ hs)
    · by_cases hw : .pc ∈ stmt.written
      · exact .inl (hlast.1 hw)
      · have hread : (stmt.exec pc m₀).1.core.read .pc = m₀.core.read .pc :=
          Stmt.read_exec trivial (by simp) hw
        rw [hx] at hread
        exact .inr ((Core.pc_eq_of_read hread).trans hpc)
  have hgoto : ∀ stmt rest m₀ m₁ l found, P (stmt :: rest) m₀ →
      stmt.exec pc m₀ = (m₁, .goto l) → fromMark? l code = some found → P found m₁ := by
    rintro stmt rest m₀ m₁ l found ⟨-, hstate⟩ hx hfound
    refine ⟨h.of_suffix (fromMark?_suffix hfound), .inr ?_⟩
    rcases hstate with hmarks | hpc
    · cases hmark hmarks hx
    · rw [Stmt.eq_of_exec_goto hx, hpc]
  obtain ⟨stmt, rest, m₀, ⟨-, hstate⟩, htrap⟩ :=
    Machine.run_trapped hnext hgoto ⟨h, .inr rfl⟩ hrun
  rcases hstate with hmarks | hpc
  · rcases htrap with hx | ⟨⟨l, hx⟩, -⟩
    · cases hmark hmarks hx
    · cases hmark hmarks hx
  · rcases htrap with hx | ⟨⟨l, hx⟩, -⟩
    · have hkept := Stmt.pc_exec_of_trap (congrArg Prod.snd hx)
      rw [hx] at hkept
      exact hkept.trans hpc
    · rw [Stmt.eq_of_exec_goto hx, hpc]

end LeavesLast

/-! ## Instructions leave last -/

namespace Lift

variable {α : Type} {special : List Register} {fs : List Flag} {Q : α → Prop} {s : Source}

/-- Whatever labels there are, the statements leave last. -/
def EmitsLast (e : Emit α) : Prop := ∀ supply, LeavesLast (e supply).2.1

theorem Emits.emitsLast {e : Emit α} (h : Emits special fs Q e) (hpc : .pc ∉ special) :
    EmitsLast e := fun supply =>
  .of_still fun stmt hs => (h.tame supply stmt hs).pc_not_written hpc

namespace EmitsLast

theorem emit (stmt : Stmt) : EmitsLast (emit stmt) := fun _ =>
  ⟨fun _ _ hs => absurd hs List.not_mem_nil, trivial⟩

/-- What comes first leaves the program counter alone. -/
theorem bind {γ : Type} {x : Emit α} {f : α → Emit γ} (hx : Emits special fs Q x)
    (hpc : .pc ∉ special) (hf : ∀ a, EmitsLast (f a)) : EmitsLast (x >>= f) := fun supply =>
  .append (fun stmt hs => (hx.tame supply stmt hs).pc_not_written hpc) (hf _ _)

theorem emit_bind {γ : Type} {stmt : Stmt} {f : Unit → Emit γ} (h : .pc ∉ stmt.written)
    (hf : ∀ a, EmitsLast (f a)) : EmitsLast (Lift.emit stmt >>= f) := fun _ =>
  ⟨fun hw => absurd hw h, hf _ _⟩

theorem temp_bind {γ : Type} {v : Expr} {f : Expr → Emit γ} (hf : ∀ e, EmitsLast (f e)) :
    EmitsLast (temp v >>= f) :=
  bind Emits.temp List.not_mem_nil hf

theorem set_bind {γ : Type} {r : Register} (hr : r.Ordinary) {v : Expr} {f : Unit → Emit γ}
    (hf : ∀ a, EmitsLast (f a)) : EmitsLast (set r v >>= f) :=
  bind (Emits.set hr) List.not_mem_nil hf

theorem branchTo {cond : Expr} {target next : Address} :
    EmitsLast (branchTo cond target next) := by
  intro supply
  rw [(branchTo_eq cond target next supply).1]
  unfold branchCode
  cases supply.labelAt? target <;> cases supply.labelAt? next <;>
    simp [LeavesLast, OnlyMarks, Stmt.written]

end EmitsLast

theorem last_jump (h : s.Fits [.target]) : Plans (Plan.jump s) EmitsLast := by
  refine (h.target 0 rfl).plans fun target _ => .emitting ?_
  refine .bind Emits.labelAt? List.not_mem_nil fun label? => ?_
  cases label? with
  | none => exact .emit _
  | some label => exact .emit _

theorem last_jumpIndirect (h : s.Fits [.register]) : Plans (Plan.jumpIndirect s) EmitsLast :=
  (h.reg 0 rfl).plans fun _ _ => .emitting (.temp_bind fun _ => .emit _)

section Calls

variable {link : Address → Emit Unit} (hlink : ∀ next, Emits special [] (fun _ => True) (link next))
  (hpc : .pc ∉ special)
include hlink hpc

theorem last_callDirect (h : s.Fits [.target]) : Plans (Plan.callDirect link s) EmitsLast :=
  (h.target 0 rfl).plans fun _ _ => .emitting (.bind (hlink _) hpc fun _ => .emit _)

theorem last_callThrough (h : s.Fits [.register]) : Plans (Plan.callThrough link s) EmitsLast :=
  (h.reg 0 rfl).plans fun _ _ =>
    .emitting (.temp_bind fun _ => .bind (hlink _) hpc fun _ => .emit _)

end Calls

theorem last_ret : Plans Plan.ret EmitsLast := by
  have hrestore : Emits [.pcxi, .psw] [] (fun _ => True)
      (intrinsic .restoreUpperContext upperRegisters []) :=
    .intrinsic (by decide) fun _ hr => within_of_layout (.inl hr) (upper_special hr)
  exact .emitting (.temp_bind fun _ => .bind hrestore (by decide) fun _ => .emit _)

theorem last_fastRet : Plans Plan.fastRet EmitsLast := by
  have hlink : Register.link.Ordinary := nofun
  have hsp : Register.stackPointer.Ordinary := nofun
  exact .emitting (.temp_bind fun _ => .set_bind hlink fun _ => .set_bind hsp fun _ => .emit _)

theorem last_retMonitor : Plans Plan.retMonitor EmitsLast := by
  have hpc : .pc ∉
      (Stmt.intrinsic .restoreDebug [.pcxi, .psw, .stackPointer, .link] []).written := by decide
  exact .emitting (.temp_bind fun _ => .emit_bind hpc fun _ => .emit _)

theorem last_branch (h : s.Fits (if s.arity = 3 then [.value, .value, .target]
    else [.value, .target])) {c : Condition} : Plans (Plan.branch c s) EmitsLast := by
  unfold Plan.branch
  split at h
  · next h3 =>
    simp only [h3, if_true]
    exact (h.value 0 (.inl rfl)).plans fun _ _ => (h.value 1 (.inl rfl)).plans fun _ _ =>
      (h.target 2 rfl).plans fun _ _ => .emitting .branchTo
  · simp only [show s.arity = 2 from h.arity, Nat.reduceEqDiff, if_false]
    exact (h.value 0 (.inl rfl)).plans fun _ _ => (Reads.ok (Q := fun _ => True) trivial).plans
      fun _ _ => (h.target 1 rfl).plans fun _ _ => .emitting .branchTo

theorem last_branchBit (h : s.Fits [.value, .immediate, .target]) {wanted : Bool} :
    Plans (Plan.branchBit wanted s) EmitsLast :=
  (h.value 0 (.inl rfl)).plans fun _ _ => (h.count 1 rfl).plans fun _ _ =>
    (h.target 2 rfl).plans fun _ _ => .emitting .branchTo

theorem last_branchStep (h : s.Fits [.register, .value, .target]) {step : Word} :
    Plans (Plan.branchStep step s) EmitsLast :=
  (h.reg 0 rfl).plans fun _ hr => (h.value 1 (.inl rfl)).plans fun _ _ =>
    (h.target 2 rfl).plans fun _ _ =>
      .emitting (.temp_bind fun _ => .set_bind hr.2 fun _ => .branchTo)

theorem last_loop (h : s.Fits [.register, .target]) : Plans (Plan.loop s) EmitsLast :=
  (h.reg 0 rfl).plans fun _ hr => (h.target 1 rfl).plans fun _ _ =>
    .emitting (.temp_bind fun _ => .set_bind hr.2 fun _ => .branchTo)

theorem last_writeCsfr (h : s.Fits [.csfr, .register]) : Plans (Plan.writeCsfr s) EmitsLast :=
  (h.csfr 0 rfl).plans fun _ _ => (h.value 1 (.inr rfl)).plans fun _ _ => .emitting (.emit _)

/-- A plan whose operands fit moves the program counter last, if at all. -/
theorem plan_last {a : Action} (h : s.Fits (a.signature s.arity)) (ha : a.declares = true) :
    Plans (plan s a) EmitsLast := by
  cases hl : a.leaves with
  | false =>
    obtain ⟨e, hp, hemits⟩ := plan_sound h ha
    refine ⟨e, hp, hemits.emitsLast fun hpc => ?_⟩
    simp [Action.leaves_of_pc_mem hpc] at hl
  | true =>
    have hpcxi : .pc ∉ [Register.pcxi] := by decide
    cases a with
    | jump | loopForever => exact last_jump h
    | jumpIndirect => exact last_jumpIndirect h
    | jumpLink => exact last_callDirect (fun _ => emits_linkOnly) List.not_mem_nil h
    | jumpLinkIndirect => exact last_callThrough (fun _ => emits_linkOnly) List.not_mem_nil h
    | call => exact last_callDirect (fun _ => emits_saveAndLink List.mem_cons_self) hpcxi h
    | callIndirect => exact last_callThrough (fun _ => emits_saveAndLink List.mem_cons_self) hpcxi h
    | fastCall => exact last_callDirect (fun _ => emits_pushLink) List.not_mem_nil h
    | fastCallIndirect => exact last_callThrough (fun _ => emits_pushLink) List.not_mem_nil h
    | ret | retException => exact last_ret
    | fastRet => exact last_fastRet
    | retMonitor => exact last_retMonitor
    | branch => exact last_branch h
    | branchBit => exact last_branchBit h
    | branchStep => exact last_branchStep h
    | loop => exact last_loop h
    | writeCsfr => exact last_writeCsfr h
    | _ => cases hl

end Lift

/-! ## Steps -/

section Step

variable {β : Type} [Bus β] {isa : Isa} {m : Machine β} {bytes : List Byte} {i : Instruction}
  {t : Trap} (hf : Machine.fetch m.bus m.core.pc = .ok bytes)
  (hd : Instruction.decode isa bytes m.core.pc = .ok i) (h : (m.step isa).2 = .trapped t)
include hf hd h

/-- An instruction that traps leaves the program counter after it. -/
theorem Machine.pc_step_of_trapped : (m.step isa).1.core.pc = i.next := by
  obtain ⟨enc, -, -, -, g, hg, hr, -⟩ := Instruction.of_decode hd
  obtain ⟨e, hp, hlast⟩ := Lift.plan_last (Instruction.fits hd).1 (Opcode.actions_declare g hg _ hr)
  have hrun := Machine.step_of_plan hf hd hp
  rw [hrun] at h ⊢
  exact (hlast _).pc_run_of_trapped (Prod.ext rfl h)

/-- An instruction traps in the ways its statements do. -/
theorem Machine.raised_of_step {Q : β → Prop} (hlast : Lasting Q) (hQ : Q m.bus) :
    t.Raised Q i.addr i.next ∨ t = .outside i.addr := by
  have hpc := Machine.pc_step_of_trapped hf hd h
  obtain ⟨_, -, hrun, -⟩ := Machine.step_of_decode hf hd
  rw [hrun] at h hpc
  rw [← hpc]
  exact Machine.raised_of_run hlast (m := m.start i) hQ (Prod.ext rfl h)

end Step

/-! ## What traps name -/

/-- The address that a trap gives for its instruction. -/
def Trap.site? : Trap → Option Address
  | invalidInstruction pc | syscall pc _ | overflow pc | contextUnderflow pc | unsupported pc _ =>
    some pc
  | unaligned _ | bus _ _ | breakpoint => none

theorem Trap.Raised.site {β : Type} [Bus β] {Q : β → Prop} {pc here a : Address} {t : Trap}
    (h : t.Raised Q pc here) (ha : t.site? = some a) :
    t ≠ .contextUnderflow a ∧ a = pc ∨ t = .contextUnderflow a ∧ a = here := by
  cases h with
  | unaligned | read | write | breakpoint => cases ha
  | contextUnderflow => cases ha; exact .inr ⟨rfl, rfl⟩
  | syscall | overflow | unmodeled | undefined => cases ha; exact .inl ⟨by simp, rfl⟩

theorem Instruction.next_ne {isa : Isa} {bytes : List Byte} {addr : Address} {i : Instruction}
    (h : decode isa bytes addr = .ok i) : i.next ≠ addr := by
  obtain ⟨e, -, haddr, hlength, -⟩ := of_decode h
  rw [next, haddr, hlength, Encoding.length]
  split <;> simp

/-- A trap that names an instruction names the one at the program counter, but for the lack of a
saved context: that names the instruction after the one that was to restore it. -/
theorem traps_name_instruction {β : Type} [Bus β] (isa : Isa) (m : Machine β) {t : Trap}
    {a : Address} (h : (m.step isa).2 = .trapped t) (ha : t.site? = some a) :
    (t ≠ .contextUnderflow a → a = m.core.pc) ∧
    (t = .contextUnderflow a → ∃ i, m.instruction? isa = some i ∧ a = i.next ∧ a ≠ m.core.pc) := by
  cases hf : Machine.fetch m.bus m.core.pc with
  | error fault =>
    simp only [Machine.step, hf] at h
    cases h
    cases ha
  | ok bytes =>
    cases hd : Instruction.decode isa bytes m.core.pc with
    | error e =>
      simp only [Machine.step, hf, hd] at h
      cases h
      cases ha
      exact ⟨fun _ => rfl, fun heq => absurd heq (by simp)⟩
    | ok i =>
      obtain ⟨-, -, haddr, -⟩ := Instruction.of_decode hd
      have hlast : Lasting fun _ : β => True := fun _ _ _ _ _ => trivial
      rcases Machine.raised_of_step hf hd h hlast trivial with hraised | rfl
      · rcases hraised.site ha with ⟨hne, hsite⟩ | ⟨heq, hsite⟩
        · exact ⟨fun _ => hsite.trans haddr, fun heq => absurd heq hne⟩
        · refine ⟨fun hne => absurd heq hne, fun _ => ⟨i, ?_, hsite, ?_⟩⟩
          · exact Machine.instruction?_eq_some.2 ⟨bytes, hf, hd⟩
          · rw [hsite]
            exact Instruction.next_ne hd
      · cases ha
        exact ⟨fun _ => haddr, fun heq => absurd heq (by simp [Trap.outside])⟩

/-- One instruction in memory of its own. -/
def aloneAt (addr : Address) (bytes : List Byte) : Machine Window where
  core := { pc := addr }
  bus := { base := addr, size := bytes.length, bytes := .putAll .empty 0 bytes }

/-- `syscall 5`, and `ret` with nothing to restore. -/
theorem traps_name_instruction_alone :
    ((aloneAt 0x100 [0xAD, 0x50, 0x80, 0x00]).step .v16).2 = .trapped (.syscall 0x100 5) ∧
      0x100 = (aloneAt 0x100 [0xAD, 0x50, 0x80, 0x00]).core.pc ∧
    ((aloneAt 0x100 [0x00, 0x90]).step .v16).2 = .trapped (.contextUnderflow 0x102) ∧
      ∃ i, (aloneAt 0x100 [0x00, 0x90]).instruction? .v16 = some i ∧ 0x102 = i.next := by
  have hsyscall : ((aloneAt 0x100 [0xAD, 0x50, 0x80, 0x00]).step .v16).2 =
      .trapped (.syscall 0x100 5) := by decide +kernel
  have hret : ((aloneAt 0x100 [0x00, 0x90]).step .v16).2 = .trapped (.contextUnderflow 0x102) := by
    decide +kernel
  obtain ⟨i, hi, hnext, -⟩ := (traps_name_instruction .v16 _ hret rfl).2 rfl
  exact ⟨hsyscall, (traps_name_instruction .v16 _ hsyscall rfl).1 (by simp), hret, i, hi, hnext⟩

/-- `ret` at 0x100 is not where the trap says. -/
theorem underflow_names_next :
    (aloneAt 0x100 [0x00, 0x90]).core.pc = 0x100 ∧
      ((aloneAt 0x100 [0x00, 0x90]).step .v16).2 = .trapped (.contextUnderflow 0x102) :=
  ⟨rfl, by decide +kernel⟩

/-! ## Steps on a window -/

namespace Window

variable {w w' : Window} {addr : Address}

/-- The address is one of the window's. -/
def Maps (w : Window) (addr : Address) : Prop :=
  w.base.toNat ≤ addr.toNat ∧ addr.toNat < w.base.toNat + w.size

instance (w : Window) (addr : Address) : Decidable (w.Maps addr) :=
  inferInstanceAs (Decidable (_ ∧ _))

def byteAt (w : Window) (addr : Address) : Byte := w.bytes.get (addr.toNat - w.base.toNat)

/-- The bytes from an address on, up to the first that is not mapped and four at most. -/
def ahead (w : Window) (addr : Address) : List Byte :=
  ([addr, addr + 1, addr + 2, addr + 3].takeWhile (w.Maps ·)).map w.byteAt

theorem covers_iff {n : Nat} : w.covers addr n = true ↔
    w.base.toNat ≤ addr.toNat ∧ addr.toNat + n ≤ w.base.toNat + w.size := by
  unfold covers offset
  rw [Bool.and_eq_true, decide_eq_true_eq, decide_eq_true_eq, BitVec.le_def]
  refine and_congr_right fun hbase => ?_
  rw [BitVec.toNat_sub_of_le hbase]
  omega

theorem covers_one : w.covers addr 1 = true ↔ w.Maps addr := covers_iff

theorem readByte_of_maps (h : w.Maps addr) : Bus.readByte w addr = .ok (w.byteAt addr) := by
  simp only [Bus.readByte, covers_one.2 h, if_true, byteAt, offset]
  rw [BitVec.toNat_sub_of_le h.1]

theorem readByte_of_not_maps (h : ¬w.Maps addr) :
    Bus.readByte w addr = .error (.outside addr 1) := by
  simp only [Bus.readByte, mt covers_one.1 h]
  rfl

theorem readable_eq (w : Window) (addr : Address) (n : Nat) : Machine.readable w addr n =
    ((List.iterate (· + 1) addr n).takeWhile (w.Maps ·)).map w.byteAt := by
  induction n generalizing addr with
  | zero => rfl
  | succ n ih =>
    rw [Machine.readable, List.iterate]
    by_cases h : w.Maps addr
    · simp [readByte_of_maps h, ih, h]
    · simp [readByte_of_not_maps h, h]

theorem fetch_of_maps (h : w.Maps addr) : Machine.fetch w addr = .ok (w.ahead addr) := by
  have hahead : w.ahead addr = Machine.readable w addr 4 := by
    rw [readable_eq, ahead]
    simp [List.iterate, BitVec.add_assoc]
  rw [hahead, Machine.readable, Machine.fetch, readByte_of_maps h]
  rfl

theorem fetch_of_not_maps (h : ¬w.Maps addr) :
    Machine.fetch w addr = .error (.outside addr 1) := by
  rw [Machine.fetch, readByte_of_not_maps h]
  rfl

/-- The windows have the same addresses. -/
def SameExtent (w w' : Window) : Prop := w'.base = w.base ∧ w'.size = w.size

theorem SameExtent.covers (h : w.SameExtent w') (addr : Address) (n : Nat) :
    w'.covers addr n = w.covers addr n := by
  unfold Window.covers offset
  rw [h.1, h.2]

theorem lasting_sameExtent (w : Window) : Lasting w.SameExtent := by
  intro w' addr n v h
  show w.SameExtent (w'.attempt (w'.load addr (split n v))).1
  unfold load
  split
  · exact h
  · exact h

/-- The trap of an access that fails names bytes that are not all mapped. -/
theorem not_covers_of_raised {n : Nat} {a pc here : Address}
    (h : (Trap.bus a (.outside addr n)).Raised w.SameExtent pc here) :
    w.covers addr n = false := by
  cases h with
  | @read w' _ k _ hQ hr =>
    rw [← hQ.covers]
    simp only [Bus.read, readBytes] at hr
    split at hr
    · cases hr
    · next hc =>
      cases hr
      simpa using hc
  | @write w' _ k v _ hQ hw =>
    rw [← hQ.covers]
    simp only [Bus.write, load] at hw
    split at hw
    · cases hw
    · next hc =>
      cases hw
      simpa using hc

end Window

section WindowStep

variable {isa : Isa} {m : Machine Window}

theorem Machine.step_of_not_maps (h : ¬m.bus.Maps m.core.pc) :
    m.step isa = (m, .trapped (.bus m.core.pc (.outside m.core.pc 1))) := by
  simp only [step, Window.fetch_of_not_maps h]

theorem Machine.step_of_undecoded (h : m.bus.Maps m.core.pc) {e : DecodeError}
    (hd : Instruction.decode isa (m.bus.ahead m.core.pc) m.core.pc = .error e) :
    m.step isa = (m, .trapped (.invalidInstruction m.core.pc)) := by
  simp only [step, Window.fetch_of_maps h, hd]

/-- What decodes traps in other ways than what cannot be fetched or does not decode. -/
theorem Machine.trap_of_decoded (h : m.bus.Maps m.core.pc) {i : Instruction} {t : Trap}
    (hd : Instruction.decode isa (m.bus.ahead m.core.pc) m.core.pc = .ok i)
    (ht : (m.step isa).2 = .trapped t) :
    t ≠ .bus m.core.pc (.outside m.core.pc 1) ∧ t ≠ .invalidInstruction m.core.pc := by
  have hraised := raised_of_step (Window.fetch_of_maps h) hd ht m.bus.lasting_sameExtent ⟨rfl, rfl⟩
  refine ⟨?_, ?_⟩
  · rintro rfl
    rcases hraised with hraised | houtside
    · -- The byte was there to be fetched, and writes do not take it away.
      have hcovers := Window.not_covers_of_raised hraised
      rw [Window.covers_one.2 h] at hcovers
      cases hcovers
    · cases houtside
  · rintro rfl
    rcases hraised with hraised | houtside
    · cases hraised
    · cases houtside

end WindowStep

/-- A step traps on the fetch of one byte at its program counter exactly if that byte is not mapped,
and on an invalid instruction there exactly if it is mapped and what can be fetched from it on does
not decode. Neither changes anything. Any other trap leaves the program counter after the
instruction that was decoded. -/
theorem failed_step (isa : Isa) (m : Machine Window) :
    let p := m.core.pc
    ((m.step isa).2 = .trapped (.bus p (.outside p 1)) ↔ ¬m.bus.Maps p) ∧
    ((m.step isa).2 = .trapped (.invalidInstruction p) ↔
      m.bus.Maps p ∧ ∃ e, Instruction.decode isa (m.bus.ahead p) p = .error e) ∧
    (∀ t, (m.step isa).2 = .trapped t →
      t = .bus p (.outside p 1) ∨ t = .invalidInstruction p → (m.step isa).1 = m) ∧
    ∀ t, (m.step isa).2 = .trapped t → t ≠ .bus p (.outside p 1) → t ≠ .invalidInstruction p →
      ∃ i, Instruction.decode isa (m.bus.ahead p) p = .ok i ∧ (m.step isa).1.core.pc = i.next := by
  intro p
  by_cases hmaps : m.bus.Maps p
  · cases hd : Instruction.decode isa (m.bus.ahead p) p with
    | error e =>
      rw [Machine.step_of_undecoded hmaps hd]
      simp [p, hmaps]
    | ok i =>
      have htrap := fun t => Machine.trap_of_decoded (t := t) hmaps hd
      refine ⟨iff_of_false (fun ht => (htrap _ ht).1 rfl) (not_not_intro hmaps), iff_of_false
        (fun ht => (htrap _ ht).2 rfl) (by simp), fun t ht => ?_, fun t ht _ _ => ?_⟩
      · rintro (rfl | rfl)
        · exact absurd rfl (htrap _ ht).1
        · exact absurd rfl (htrap _ ht).2
      · exact ⟨i, rfl, Machine.pc_step_of_trapped (Window.fetch_of_maps hmaps) hd ht⟩
  · rw [Machine.step_of_not_maps hmaps]
    simp [p, hmaps]

/-- The load `ld.w d0, [a15]` of its own address, as far as the memory goes. -/
def loadHere (size : Nat) : Machine Window where
  core := {}
  bus := { base := 0, size, bytes := .putAll .empty 0 [0x48, 0x00] }

/-- Without memory, with half of the instruction, and with the instruction but not the word. -/
theorem failed_step_load :
    ((loadHere 0).step .v16).2 = .trapped (.bus 0 (.outside 0 1)) ∧
      ((loadHere 0).step .v16).1 = loadHere 0 ∧
    ((loadHere 1).step .v16).2 = .trapped (.invalidInstruction 0) ∧
      ((loadHere 1).step .v16).1 = loadHere 1 ∧
    ((loadHere 2).step .v16).2 = .trapped (.bus 0 (.outside 0 4)) ∧
      ((loadHere 2).step .v16).1.core.pc = 2 := by
  obtain ⟨hfetch, -, hkeeps₀, -⟩ := failed_step .v16 (loadHere 0)
  obtain ⟨-, hdecode, hkeeps₁, -⟩ := failed_step .v16 (loadHere 1)
  obtain ⟨-, -, -, hmoved⟩ := failed_step .v16 (loadHere 2)
  have htrap₀ := hfetch.2 (by decide +kernel)
  have htrap₁ := hdecode.2 ⟨by decide +kernel, .truncated 0 4 1, by decide +kernel⟩
  have htrap₂ : ((loadHere 2).step .v16).2 = .trapped (.bus 0 (.outside 0 4)) := by decide +kernel
  obtain ⟨i, hd, hpc⟩ := hmoved _ htrap₂ (by decide) (by decide)
  refine ⟨htrap₀, hkeeps₀ _ htrap₀ (.inl rfl), htrap₁, hkeeps₁ _ htrap₁ (.inr rfl), htrap₂, ?_⟩
  rw [hpc]
  cases hd
  rfl

end Tricore
