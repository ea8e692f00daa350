import Mathlib
import Tricore.Memory.Window
import Tricore.Proofs.Plans
import Tricore.Proofs.Successor

/-!
# Saved contexts

Contexts are saved on a list and the context link counts them. What is restored is what was saved
(`Core.read_loadContext_saved`), and a statement that does not write the link leaves the list alone
(`Stmt.frames_exec`).

`Core.Linked` says that the list is linked: the link is the number of saved contexts, and every saved
context holds the number of those before it. Saving and restoring keep the list linked, also where a
context is restored as one of the other kind and where there is none left to restore. So it stays
linked over any number of steps of a program that does not write the link in some other way
(`contexts_stay_linked`).
-/

namespace Tricore

/-! ## Saving and restoring -/

/-- The register can be part of a context. -/
def Register.inContext : Register → Bool
  | d n | a n => decide (n < 16)
  | psw | pcxi => true
  | _ => false

theorem Register.isCell_of_inContext {r : Register} (h : r.inContext = true) : r.IsCell := by
  cases r with
  | d n | a n => exact of_decide_eq_true (p := n < 16) h
  | psw | pcxi => trivial
  | _ => cases h

theorem ContextKind.inContext_of_mem (kind : ContextKind) :
    ∀ r ∈ kind.layout.toList, r.inContext = true := by
  cases kind <;> decide

theorem ContextKind.layout_nodup (kind : ContextKind) : kind.layout.toList.Nodup := by
  cases kind <;> decide

namespace Core

variable {c : Core} {r : Register}

@[simp] theorem frames_write (c : Core) (r : Register) (v : Value) :
    (c.write r v).frames = c.frames := by
  unfold write
  cases r.canonical <;> rfl

@[simp] theorem frames_setInterrupts (c : Core) (on : Bool) :
    (c.setInterrupts on).frames = c.frames := frames_write ..

theorem frames_foldl_write (words : List (Register × Word)) (c : Core) :
    (words.foldl (fun c (r, w) => c.write r (w.setWidth 64)) c).frames = c.frames := by
  induction words generalizing c with
  | nil => rfl
  | cons w words ih => rw [List.foldl_cons, ih, frames_write]

@[simp] theorem frames_loadContext (c : Core) (kind : ContextKind) (words : Vector Word 16) :
    (c.loadContext kind words).frames = c.frames := by
  unfold loadContext
  rw [← Vector.foldl_toList]
  exact frames_foldl_write _ c

/-- The registers of a context hold words. -/
theorem read_setWidth (h : r.inContext = true) :
    ((c.read r).setWidth 32).setWidth 64 = c.read r := by
  cases r with
  | d | a | psw | pcxi => simp [read, Register.canonical]
  | _ => cases h

theorem read_congr {c' : Core} (h : r.inContext = true)
    (hc : c.d = c'.d ∧ c.a = c'.a ∧ c.psw = c'.psw ∧ c.pcxi = c'.pcxi) : c.read r = c'.read r := by
  obtain ⟨hd, ha, hpsw, hpcxi⟩ := hc
  cases r with
  | d | a | psw | pcxi => simp [read, Register.canonical, *]
  | _ => cases h

theorem read_write_self {v : Value} (h : r.inContext = true) :
    (c.write r v).read r = (v.setWidth 32).setWidth 64 := by
  cases r with
  | d n | a n =>
    have hn : n < 16 := of_decide_eq_true h
    simp [read, write, Register.canonical, setD, setA, Vector.get_eq_getElem, Nat.mod_eq_of_lt hn]
  | psw | pcxi => rfl
  | _ => cases h

theorem read_foldl_write_mem {words : List (Register × Word)} {w : Word}
    (hcontext : ∀ p ∈ words, p.1.inContext = true) (hnodup : (words.map Prod.fst).Nodup)
    (h : (r, w) ∈ words) :
    (words.foldl (fun c (r, w) => c.write r (w.setWidth 64)) c).read r = w.setWidth 64 := by
  induction words generalizing c with
  | nil => cases h
  | cons p words ih =>
    rw [List.map_cons, List.nodup_cons] at hnodup
    rcases List.mem_cons.1 h with rfl | h
    · -- No later word goes to the same register.
      have hr : r.inContext = true := hcontext (r, w) (by simp)
      have hother : ∀ q ∈ words, r ∉ q.1.cells := by
        intro q hq hmem
        rw [Register.cells_of_isCell (Register.isCell_of_inContext (hcontext q (by simp [hq])))] at hmem
        have hq' := List.mem_map_of_mem (f := Prod.fst) hq
        rw [← List.mem_singleton.1 hmem] at hq'
        exact hnodup.1 hq'
      rw [List.foldl_cons, read_foldl_write (Register.isCell_of_inContext hr) hother,
        read_write_self hr]
      simp
    · exact ih (fun q hq => hcontext q (by simp [hq])) hnodup.2 h

/-- The words of a context go to its registers. -/
theorem read_loadContext_layout (kind : ContextKind) (words : Vector Word 16) {k : Nat}
    (hk : k < 16) :
    (c.loadContext kind words).read kind.layout[k] = words[k].setWidth 64 := by
  unfold loadContext
  rw [← Vector.foldl_toList, Vector.toList_zip]
  have hfst : (kind.layout.toList.zip words.toList).map Prod.fst = kind.layout.toList :=
    List.map_fst_zip (by simp)
  have hnodup : ((kind.layout.toList.zip words.toList).map Prod.fst).Nodup := by
    rw [hfst]
    exact kind.layout_nodup
  refine read_foldl_write_mem (fun p hp => ?_) hnodup ?_
  · exact kind.inContext_of_mem p.1 (List.of_mem_zip hp).1
  · rw [List.mem_iff_getElem]
    exact ⟨k, by simpa using hk, by simp⟩

/-- The context of a core, as it is saved. -/
def saved (c : Core) (kind : ContextKind) : Frame :=
  ⟨kind, kind.layout.map fun r => (c.read r).setWidth 32⟩

theorem saved_congr {c' : Core} (kind : ContextKind)
    (hc : c.d = c'.d ∧ c.a = c'.a ∧ c.psw = c'.psw ∧ c.pcxi = c'.pcxi) :
    c.saved kind = c'.saved kind := by
  unfold saved
  congr 1
  refine Vector.map_congr_left fun r hr => ?_
  rw [read_congr (kind.inContext_of_mem r (Vector.mem_toList_iff.2 hr)) hc]

/-- What is restored is what was saved. -/
theorem read_loadContext_saved (c' : Core) {kind : ContextKind} (h : r ∈ kind.layout.toList) :
    (c'.loadContext kind (c.saved kind).words).read r = c.read r := by
  obtain ⟨k, hk, rfl⟩ := List.mem_iff_getElem.1 h
  have hk' : k < 16 := by simpa using hk
  have hcontext := kind.inContext_of_mem _ h
  simp only [Vector.getElem_toList] at hcontext ⊢
  rw [read_loadContext_layout kind _ hk']
  simp only [saved, Vector.getElem_map]
  exact read_setWidth hcontext

end Core

/-! ## The list of saved contexts -/

/-- The intrinsic changes the list of saved contexts. -/
def Intrinsic.moves : Intrinsic → Bool
  | saveUpperContext | saveLowerContext | bisr | restoreUpperContext | restoreLowerContext => true
  | _ => false

/-- The statement changes the list of saved contexts. -/
def Stmt.moves : Stmt → Bool
  | intrinsic i _ _ => i.moves
  | _ => false

/-- The list is not changed without the link. -/
theorem Intrinsic.pcxi_mem_of_moves {i : Intrinsic} (h : i.moves = true) : .pcxi ∈ i.implied := by
  cases i with
  | saveUpperContext | saveLowerContext | bisr | restoreUpperContext | restoreLowerContext =>
    decide
  | _ => cases h

theorem Stmt.moves_of_not_written {stmt : Stmt} (h : .pcxi ∉ stmt.written) :
    stmt.moves = false := by
  cases stmt with
  | intrinsic i outputs inputs =>
    refine Bool.eq_false_iff.2 fun hm => h ?_
    exact List.mem_append_left _ (Intrinsic.pcxi_mem_of_moves hm)
  | _ => rfl

namespace Machine

variable {β : Type} [Bus β] {m : Machine β}

theorem frames_loadRegisters {addr : Address} {rs : List Register} :
    (m.loadRegisters addr rs).1.core.frames = m.core.frames := by
  fun_induction loadRegisters m addr rs with
  | case1 | case3 => rfl
  | case2 m addr r rs v hv ih => rw [ih]; exact Core.frames_write ..

theorem frames_intrinsic {pc : Address} {i : Intrinsic} {outputs : List Register}
    {args : List Value} (h : i.moves = false) :
    (m.intrinsic pc i outputs args).1.core.frames = m.core.frames := by
  cases i with
  | saveUpperContext | saveLowerContext | bisr | restoreUpperContext | restoreLowerContext =>
    cases h
  | loadUpperContext | loadLowerContext => exact frames_loadRegisters
  | storeUpperContext | storeLowerContext => exact congrArg Core.frames core_storeRegisters
  | mfcr | mtcr | bitReverseStep | parity | bmerge | bsplit =>
    cases outputs with
    | nil => rfl
    | cons r rs => exact Core.frames_write ..
  | enableInterrupts | disableInterrupts | restoreInterrupts => exact Core.frames_setInterrupts ..
  | disableInterruptsSaving =>
    cases outputs with
    | nil => exact Core.frames_setInterrupts ..
    | cons r rs => exact (Core.frames_write ..).trans (Core.frames_setInterrupts ..)
  | _ => rfl

end Machine

namespace Stmt

variable {β : Type} [Bus β] {m : Machine β} {pc : Address} {stmt : Stmt}

theorem frames_exec (h : stmt.moves = false) :
    (stmt.exec pc m).1.core.frames = m.core.frames := by
  cases stmt with
  | setReg | jump | call | ret =>
    simp only [exec]
    split
    · exact Core.frames_write ..
    · rfl
  | setFlag | branch => simp only [exec]; split <;> rfl
  | store =>
    simp only [exec]
    split
    · rfl
    · split
      · rfl
      · exact congrArg Core.frames Machine.core_store
  | intrinsic i outputs inputs =>
    simp only [exec]
    split
    · exact Machine.frames_intrinsic h
    · rfl
  | goto | mark | nop | undefined => rfl

theorem pcxi_exec (h : .pcxi ∉ stmt.written) : (stmt.exec pc m).1.core.pcxi = m.core.pcxi := by
  have hread : (stmt.exec pc m).1.core.read .pcxi = m.core.read .pcxi :=
    read_exec trivial (by simp) h
  simpa [Core.read, Register.canonical] using congrArg (BitVec.setWidth 32) hread

end Stmt

/-! ## The link -/

/-- Every saved context holds the number of contexts before it, oldest context last. -/
def Chained : List Frame → Prop
  | [] => True
  | frame :: frames => frame.words.get 0 = .ofNat 32 frames.length ∧ Chained frames

/-- The saved contexts are linked, up to the size of a word. -/
structure Core.Linked (c : Core) : Prop where
  link : c.pcxi = .ofNat 32 c.frames.length
  chained : Chained c.frames

/-- The context at position `k`, counted from the oldest, holds `k`. -/
theorem Chained.first_word {frames : List Frame} (h : Chained frames) {k : Nat} {frame : Frame}
    (hk : frames.reverse[k]? = some frame) : frame.words.get 0 = .ofNat 32 k := by
  induction frames with
  | nil => simp at hk
  | cons first frames ih =>
    rw [List.reverse_cons] at hk
    rcases Nat.lt_or_ge k frames.length with hlt | hge
    · rw [List.getElem?_append_left (by simpa using hlt)] at hk
      exact ih h.2 hk
    · rw [List.getElem?_append_right (by simpa using hge), List.getElem?_singleton] at hk
      split at hk
      · next hz =>
        cases hk
        obtain rfl : k = frames.length := by simp at hz; omega
        exact h.1
      · cases hk

namespace Core

variable {c : Core}

theorem Linked.saveContext (h : c.Linked) (kind : ContextKind) : (c.saveContext kind).Linked where
  link := rfl
  chained := by
    refine ⟨?_, h.chained⟩
    have hfirst : (c.saved kind).words.get 0 = c.pcxi := by
      show (c.saved kind).words[0] = c.pcxi
      cases kind <;> simp [saved, ContextKind.layout, read, Register.canonical]
    exact hfirst.trans h.link

/-- Only the link and the list matter. -/
theorem Linked.congr {c' : Core} (h : c.Linked) (hpcxi : c'.pcxi = c.pcxi)
    (hframes : c'.frames = c.frames) : c'.Linked := by
  refine ⟨?_, ?_⟩
  · rw [hpcxi, hframes, h.link]
  · rw [hframes]
    exact h.chained

/-- The kind that a context was saved as does not matter. -/
theorem Linked.loadContext {frame : Frame} {frames : List Frame} (h : c.Linked)
    (hf : c.frames = frame :: frames) (kind : ContextKind) :
    ({ c with frames }.loadContext kind frame.words).Linked := by
  have hchained := h.chained
  rw [hf] at hchained
  refine ⟨?_, by simpa using hchained.2⟩
  have hfirst : ({ c with frames }.loadContext kind frame.words).read .pcxi =
      (frame.words.get 0).setWidth 64 := by
    have hlayout : kind.layout[0] = .pcxi := by cases kind <;> rfl
    rw [← hlayout]
    exact read_loadContext_layout kind frame.words (by omega)
  have hpcxi : ({ c with frames }.loadContext kind frame.words).pcxi = frame.words.get 0 := by
    simpa [read, Register.canonical] using congrArg (BitVec.setWidth 32) hfirst
  rw [hpcxi, frames_loadContext, hchained.1]

end Core

theorem Machine.linked_restore {β : Type} {m : Machine β} (h : m.core.Linked) (kind : ContextKind) :
    (m.restore kind).1.core.Linked := by
  unfold restore Core.restoreContext
  split
  · next core hc =>
    split at hc
    · cases hc
    · next frame frames hf =>
      cases hc
      exact h.loadContext hf kind
  · exact h

namespace Stmt

variable {β : Type} [Bus β] {m : Machine β} {pc : Address} {stmt : Stmt}

/-- The statement does not write the link, or writes it with the list. A return from a debug monitor
is not modeled and does nothing. -/
def KeepsLink (stmt : Stmt) : Prop :=
  .pcxi ∉ stmt.written ∨ stmt.moves = true ∨
    ∃ outputs inputs, stmt = .intrinsic .restoreDebug outputs inputs

theorem linked_moves (h : stmt.moves = true) (hm : m.core.Linked) :
    (stmt.exec pc m).1.core.Linked := by
  cases stmt with
  | intrinsic i outputs inputs =>
    simp only [exec]
    split
    · cases i with
      | saveUpperContext => exact hm.saveContext .upper
      | saveLowerContext => exact hm.saveContext .lower
      | bisr =>
        exact (hm.saveContext .lower).congr rfl
          ((Core.frames_setInterrupts ..).trans (Core.frames_write ..))
      | restoreUpperContext => exact Machine.linked_restore hm .upper
      | restoreLowerContext => exact Machine.linked_restore hm .lower
      | _ => cases h
    · exact hm
  | _ => cases h

/-- Saving and restoring keep the list linked, and so does a restore that finds it empty. -/
theorem KeepsLink.linked_exec (h : stmt.KeepsLink) (hm : m.core.Linked) :
    (stmt.exec pc m).1.core.Linked := by
  rcases h with hw | hmoves | ⟨outputs, inputs, rfl⟩
  · exact hm.congr (pcxi_exec hw) (frames_exec (moves_of_not_written hw))
  · exact linked_moves hmoves hm
  · simp only [exec]
    split <;> exact hm

end Stmt

/-! ## Instructions -/

/-- The action saves or restores a context. -/
def Action.moves : Action → Bool
  | call | callIndirect | ret | retException => true
  | platform i => i.moves
  | _ => false

theorem Intrinsic.of_pcxi_mem {i : Intrinsic} (h : .pcxi ∈ i.implied) :
    i.moves = true ∨ i = loadUpperContext ∨ i = loadLowerContext := by
  revert h
  cases i <;> decide

/-- The actions that may write the link. -/
theorem Action.of_pcxi_mem {a : Action} {os : List Operand} (h : .pcxi ∈ a.special os)
    (ha : a.declares = true) :
    a.moves = true ∨ a = .retMonitor ∨ a = .context .loadUpperContext ∨
      a = .context .loadLowerContext ∨ a = .writeCsfr ∧ .csfr 0xFE00 ∈ os := by
  cases a with
  | call | callIndirect | ret | retException => exact .inl rfl
  | retMonitor => exact .inr (.inl rfl)
  | context i =>
    rcases Intrinsic.of_pcxi_mem (List.mem_of_mem_filter h) with hm | rfl | rfl
    · cases i with
      | saveUpperContext | saveLowerContext | bisr | restoreUpperContext | restoreLowerContext =>
        cases ha
      | _ => cases hm
    · simp
    · simp
  | platform i =>
    rcases Intrinsic.of_pcxi_mem (List.mem_of_mem_filter h) with hm | rfl | rfl
    · exact .inl hm
    · cases ha
    · cases ha
  | writeCsfr =>
    obtain ⟨o, ho, hr⟩ := List.mem_filterMap.1 h
    cases o with
    | csfr offset =>
      have hoffset := Register.offset_of_canonical (Option.some.inj hr) rfl
      exact .inr (.inr (.inr (.inr ⟨rfl, hoffset ▸ ho⟩)))
    | _ => cases hr
  | jump | loopForever | branch | branchBit | branchStep | loop | fastCall | jumpLink
  | jumpIndirect | fastCallIndirect | jumpLinkIndirect | fastRet =>
    exact absurd (List.mem_singleton.1 h) nofun
  | _ => cases h

namespace Instruction

/-- The instruction loads the link from memory or from a register, instead of with the list. -/
def relinks (i : Instruction) : Bool :=
  match i.row.action with
  | .context .loadLowerContext | .context .loadUpperContext => true
  | .writeCsfr => i.operands.contains (.csfr 0xFE00)
  | _ => false

end Instruction

namespace Lift

variable {s : Source} {α β : Type}

/-- All statements that are emitted have the property. -/
def Emit.All (P : Stmt → Prop) (e : Emit α) : Prop := ∀ supply, ∀ stmt ∈ (e supply).2.1, P stmt

namespace Emit.All

variable {P : Stmt → Prop}

theorem bind {x : Emit α} {f : α → Emit β} (hx : x.All P)
    (hf : ∀ supply, (f (x supply).1).All P) : (x >>= f).All P := by
  intro supply stmt hs
  rcases List.mem_append.1 hs with hs | hs
  · exact hx supply stmt hs
  · exact hf _ _ stmt hs

theorem emit {stmt : Stmt} (h : P stmt) : (Lift.emit stmt).All P := by
  intro supply stmt' hs
  rwa [List.mem_singleton.1 hs]

/-- What is emitted without a special register does not write the link. -/
theorem of_emits (hP : ∀ stmt : Stmt, .pcxi ∉ stmt.written → P stmt) {special : List Register}
    (hs : .pcxi ∉ special) {fs : List Flag} {Q : α → Prop} {e : Emit α}
    (h : Emits special fs Q e) : e.All P := by
  intro supply stmt hmem
  refine hP stmt fun hw => ?_
  rcases (h.tame supply stmt hmem).listed hw rfl with hlisted | ⟨hpsw, -⟩
  · exact hs hlisted
  · cases hpsw

/-- Where to return to is kept while the context is restored. -/
theorem restoring (hP : ∀ stmt : Stmt, .pcxi ∉ stmt.written → P stmt) {x : Expr} {i : Intrinsic}
    {outputs : List Register} (hi : P (.intrinsic i outputs [])) :
    All P (do
      let dest ← Lift.temp x
      Lift.intrinsic i outputs []
      Lift.emit (.ret dest)) :=
  bind (of_emits hP List.not_mem_nil .temp) fun _ => bind (emit hi) fun _ =>
    emit (hP _ (List.mem_singleton.not.2 nofun))

end Emit.All

theorem keepsLink_saveAndLink {next : Address} : (saveAndLink next).All Stmt.KeepsLink :=
  .bind (.emit (.inr (.inl rfl))) fun _ => .emit (.inl (show .pcxi ∉ Register.link.cells by decide))

theorem keepsLink_ret : Plans Plan.ret (Emit.All Stmt.KeepsLink) :=
  .emitting (Emit.All.restoring (fun _ => .inl) (.inr (.inl rfl)))

theorem keepsLink_retMonitor : Plans Plan.retMonitor (Emit.All Stmt.KeepsLink) :=
  .emitting (Emit.All.restoring (fun _ => .inl) (.inr (.inr ⟨_, _, rfl⟩)))

theorem still_retMonitor : Plans Plan.retMonitor (Emit.All (·.moves = false)) :=
  .emitting (Emit.All.restoring (fun _ => Stmt.moves_of_not_written) rfl)

theorem still_load (h : s.Fits [.place]) {i : Intrinsic} (hi : i.moves = false) :
    Plans (Plan.context i s) (Emit.All (·.moves = false)) := by
  refine (h.place 0 rfl).plans fun place hp => .emitting ?_
  have haccess : Emits [] [] _ (access place) := emits_access hp
  have hstill := Emit.All.of_emits (fun _ => Stmt.moves_of_not_written) List.not_mem_nil haccess
  refine .bind hstill fun supply => .bind (.emit hi) fun _ => ?_
  exact .of_emits (fun _ => Stmt.moves_of_not_written) List.not_mem_nil (haccess.value supply)

theorem keepsLink_of_moves {a : Action} (h : s.Fits (a.signature s.arity)) (ha : a.declares = true)
    (hm : a.moves = true) : Plans (plan s a) (Emit.All Stmt.KeepsLink) := by
  cases a with
  | call =>
    exact (h.target 0 rfl).plans fun _ _ => .emitting (.bind keepsLink_saveAndLink fun _ =>
      .emit (.inl (List.mem_singleton.not.2 nofun)))
  | callIndirect =>
    exact (h.reg 0 rfl).plans fun _ _ => .emitting (
      .bind (.of_emits (fun _ => .inl) List.not_mem_nil .temp) fun _ =>
      .bind keepsLink_saveAndLink fun _ => .emit (.inl (List.mem_singleton.not.2 nofun)))
  | ret | retException => exact keepsLink_ret
  | platform i =>
    cases i with
    | saveLowerContext | bisr =>
      exact (reads_values h).plans fun _ _ => .emitting (.emit (.inr (.inl rfl)))
    | restoreLowerContext => exact .emitting (Emit.All.emit (.inr (.inl rfl)))
    | saveUpperContext | restoreUpperContext => cases ha
    | _ => cases hm
  | _ => cases hm

/-- An action that does not save or restore a context leaves the list alone. -/
theorem plan_still {a : Action} (h : s.Fits (a.signature s.arity)) (ha : a.declares = true)
    (hm : a.moves = false) : Plans (plan s a) (Emit.All (·.moves = false)) := by
  by_cases hl : .pcxi ∈ a.special s.operands
  · rcases Action.of_pcxi_mem hl ha with hmoves | rfl | rfl | rfl | ⟨rfl, -⟩
    · rw [hm] at hmoves
      cases hmoves
    · exact still_retMonitor
    · exact still_load h rfl
    · exact still_load h rfl
    · exact (h.csfr 0 rfl).plans fun _ _ => (h.value 1 (.inr rfl)).plans fun _ _ =>
        .emitting (.emit rfl)
  · obtain ⟨e, hp, he⟩ := plan_sound h ha
    exact ⟨e, hp, .of_emits (fun _ => Stmt.moves_of_not_written) hl he⟩

/-- An action that does not load the link keeps it. -/
theorem plan_keepsLink {a : Action} (h : s.Fits (a.signature s.arity)) (ha : a.declares = true)
    (hc : a ≠ .context .loadUpperContext ∧ a ≠ .context .loadLowerContext)
    (hw : ¬ (a = .writeCsfr ∧ .csfr 0xFE00 ∈ s.operands)) :
    Plans (plan s a) (Emit.All Stmt.KeepsLink) := by
  by_cases hl : .pcxi ∈ a.special s.operands
  · rcases Action.of_pcxi_mem hl ha with hm | rfl | rfl | rfl | hcsfr
    · exact keepsLink_of_moves h ha hm
    · exact keepsLink_retMonitor
    · exact absurd rfl hc.1
    · exact absurd rfl hc.2
    · exact absurd hcsfr hw
  · obtain ⟨e, hp, he⟩ := plan_sound h ha
    exact ⟨e, hp, .of_emits (fun _ => .inl) hl he⟩

end Lift

/-! ## Steps -/

namespace Machine

variable {β : Type} [Bus β] {isa : Isa} {m : Machine β} {i : Instruction}

/-- What the statements of an instruction keep, a step of it keeps. -/
theorem step_keeps {P : Machine β → Prop} {Q : Stmt → Prop}
    (hi : m.instruction? isa = some i) (hplan : Lift.Plans i.plan (Lift.Emit.All Q))
    (hQ : ∀ stmt, Q stmt → ∀ m, P m → P (stmt.exec i.addr m).1) (hm : P (m.start i)) :
    P (m.step isa).1 := by
  obtain ⟨bytes, hf, hd⟩ := instruction?_eq_some.1 hi
  obtain ⟨e, hp, hall⟩ := hplan
  rw [step_of_plan hf hd hp]
  exact run_keeps (fun stmt hs => hQ stmt (hall _ stmt hs)) (List.Subset.refl _) hm

theorem fits_of_instruction? (hi : m.instruction? isa = some i) :
    (Lift.Source.of i).Fits (i.row.action.signature (Lift.Source.of i).arity) ∧
      i.row.action.declares = true := by
  obtain ⟨bytes, -, hd⟩ := instruction?_eq_some.1 hi
  obtain ⟨-, -, -, -, g, hg, hrow, -⟩ := Instruction.of_decode hd
  exact ⟨(Instruction.fits hd).1, Opcode.actions_declare g hg _ hrow⟩

/-- Only saving and restoring change the list of saved contexts. -/
theorem frames_step (hi : m.instruction? isa = some i) (hm : i.row.action.moves = false) :
    (m.step isa).1.core.frames = m.core.frames := by
  obtain ⟨hfits, hdeclares⟩ := fits_of_instruction? hi
  refine step_keeps (P := fun m' => m'.core.frames = m.core.frames) hi
    (Lift.plan_still hfits hdeclares hm) (fun stmt hs m' hm' => ?_) rfl
  rw [Stmt.frames_exec hs, hm']

theorem linked_step (hi : m.instruction? isa = some i) (hr : i.relinks = false)
    (h : m.core.Linked) : (m.step isa).1.core.Linked := by
  obtain ⟨hfits, hdeclares⟩ := fits_of_instruction? hi
  unfold Instruction.relinks at hr
  refine step_keeps (P := fun m => m.core.Linked) hi
    (Lift.plan_keepsLink hfits hdeclares ⟨fun ha => ?_, fun ha => ?_⟩ fun ⟨ha, ho⟩ => ?_)
    (fun stmt hs _ hm => hs.linked_exec hm) (h.congr rfl rfl)
  · rw [ha] at hr
    cases hr
  · rw [ha] at hr
    cases hr
  · rw [ha] at hr
    have hcontains : i.operands.contains (.csfr 0xFE00) = true :=
      List.contains_iff_mem.2 (List.mem_of_mem_filter ho)
    cases hcontains.symm.trans hr

end Machine

/-- From a core without saved contexts, and as long as no instruction loads the link on its own, the
saved contexts stay linked: the link is their number, and each of them holds its position. -/
theorem contexts_stay_linked {β : Type} [Bus β] (isa : Isa) (m : Machine β) (n : Nat)
    (hnew : m.core.frames = [] ∧ m.core.pcxi = 0)
    (hno : ∀ k < n, ∀ i, (m.after isa k).instruction? isa = some i → i.relinks = false)
    (hlen : (m.after isa n).core.frames.length < 2 ^ 32) :
    (m.after isa n).core.pcxi.toNat = (m.after isa n).core.frames.length ∧
      ∀ (k : Nat) (frame : Frame), (m.after isa n).core.frames.reverse[k]? = some frame →
        (frame.words.get 0).toNat = k := by
  have hstart : m.core.Linked := by
    refine ⟨?_, ?_⟩
    · rw [hnew.1, hnew.2]
      rfl
    · rw [hnew.1]
      trivial
  have hlinked : (m.after isa n).core.Linked :=
    Machine.after_keeps (P := fun m => m.core.Linked)
      (fun k hk i hi h => Machine.linked_step hi (hno k hk i hi) h) hstart n (Nat.le_refl n)
  refine ⟨?_, fun k frame hk => ?_⟩
  · rw [hlinked.link, BitVec.toNat_ofNat, Nat.mod_eq_of_lt hlen]
  · have hlt : k < (m.after isa n).core.frames.length := by
      simpa using (List.getElem?_eq_some_iff.1 hk).1
    rw [hlinked.chained.first_word hk, BitVec.toNat_ofNat, Nat.mod_eq_of_lt (by omega)]

/-- `svlcx; bisr 5; ret`, where the return takes a lower context for an upper one, and on from address
`0x20` a restore too many: `rslcx; rslcx; svlcx; svlcx`. -/
def mixedRestores : Machine Window where
  core := { a := .replicate 16 0x20 }
  bus :=
    let saves : Store := .putAll .empty 0 [0x0D, 0, 0, 2, 0xAD, 0x50, 0, 0, 0, 0x90]
    let restores : List Byte := [0x0D, 0, 0x40, 2, 0x0D, 0, 0x40, 2, 0x0D, 0, 0, 2, 0x0D, 0, 0, 2]
    { base := 0, size := 64, bytes := saves.putAll 0x20 restores }

theorem contexts_stay_linked_mixed :
    ((mixedRestores.after .v16 4).step .v16).2 = .trapped (.contextUnderflow 0x28) ∧
      (mixedRestores.after .v16 7).core.pcxi.toNat = 2 ∧
      ∀ frame, (mixedRestores.after .v16 7).core.frames.reverse[1]? = some frame →
        (frame.words.get 0).toNat = 1 := by
  have hlength : (mixedRestores.after .v16 7).core.frames.length = 2 := by decide +kernel
  have hno : ∀ k < 7,
      ((mixedRestores.after .v16 k).instruction? .v16).all (!·.relinks) = true := by
    decide +kernel
  obtain ⟨hlink, hwords⟩ := contexts_stay_linked .v16 mixedRestores 7 ⟨rfl, rfl⟩
    (fun k hk i hi => by simpa [hi] using hno k hk) (by omega)
  exact ⟨by decide +kernel, hlink.trans hlength, hwords 1⟩

end Tricore
