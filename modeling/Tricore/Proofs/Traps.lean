import Mathlib
import Tricore.Proofs.Execution

/-!
# Traps

What executing a statement can end in. `Trap.Raised Q pc here` are the traps that a statement of the
instruction at `pc` can raise while `Q` holds of memory and the program counter is at `here`: those
of an access that is misaligned or that the bus refuses, those that an intrinsic asks for, and those
of what is not modeled. Only the lack of a saved context is told with the program counter.
`Stmt.raised_of_exec` says that there are no others, and `Stmt.keeps_exec` that `Q` goes on holding
if every write keeps it.

Fetching and decoding come before any statement, so no statement finds an instruction invalid.
-/

namespace Tricore

section Raised

variable {β : Type} [Bus β]

/-- Every write keeps the property. -/
def Lasting (Q : β → Prop) : Prop := ∀ bus addr n v, Q bus → Q (Bus.write bus addr n v).1

/-- The traps that statements of the instruction at `pc` may raise while the property holds of
memory and the program counter is at `here`. -/
inductive Trap.Raised (Q : β → Prop) (pc here : Address) : Trap → Prop
  | unaligned (addr : Address) : Raised Q pc here (.unaligned addr)
  | read {bus : β} {addr : Address} {n : Nat} {fault : Fault} (hQ : Q bus)
    (h : Bus.read bus addr n = .error fault) : Raised Q pc here (.bus addr fault)
  | write {bus : β} {addr : Address} {n : Nat} {v : Value} {fault : Fault} (hQ : Q bus)
    (h : (Bus.write bus addr n v).2 = some fault) : Raised Q pc here (.bus addr fault)
  | breakpoint : Raised Q pc here .breakpoint
  | syscall (number : Word) : Raised Q pc here (.syscall pc number)
  | overflow : Raised Q pc here (.overflow pc)
  | contextUnderflow : Raised Q pc here (.contextUnderflow here)
  | unmodeled (i : Intrinsic) : Raised Q pc here (.unsupported pc i.name)
  | undefined : Raised Q pc here (.unsupported pc "undefined behaviour")

variable {Q : β → Prop} {pc here : Address} {m : Machine β} {t : Trap}

/-! ## Memory -/

namespace Machine

theorem raised_of_load {addr : Address} {w : Width} (hQ : Q m.bus)
    (h : m.load addr w = .error t) : t.Raised Q pc here := by
  unfold load at h
  split at h
  · cases h
    exact .unaligned addr
  · cases hr : Bus.read m.bus addr w.bytes with
    | ok v => rw [hr] at h; cases h
    | error fault =>
      rw [hr] at h
      cases h
      exact .read hQ hr

theorem raised_of_store {addr : Address} {w : Width} {v : Value} (hQ : Q m.bus)
    (h : (m.store addr w v).2 = some t) : t.Raised Q pc here := by
  unfold store at h
  split at h
  · cases h
    exact .unaligned addr
  · obtain ⟨fault, hw, rfl⟩ := Option.map_eq_some_iff.1 h
    exact .write hQ hw

theorem keeps_store (hlast : Lasting Q) (hQ : Q m.bus) (addr : Address) (w : Width) (v : Value) :
    Q (m.store addr w v).1.bus := by
  unfold store
  split
  · exact hQ
  · exact hlast _ _ _ _ hQ

theorem keeps_storeRegisters (hlast : Lasting Q) {addr : Address} {rs : List Register}
    (hQ : Q m.bus) : Q (m.storeRegisters addr rs).1.bus := by
  fun_induction storeRegisters m addr rs with
  | case1 => exact hQ
  | case2 m addr r rs m' hs ih =>
    refine ih ?_
    have hkeeps := keeps_store hlast hQ addr .word (m.core.read r)
    rwa [hs] at hkeeps
  | case3 m addr r rs m' trap hs =>
    have hkeeps := keeps_store hlast hQ addr .word (m.core.read r)
    rwa [hs] at hkeeps

theorem raised_of_storeRegisters (hlast : Lasting Q) {addr : Address} {rs : List Register}
    (hQ : Q m.bus) (h : (m.storeRegisters addr rs).2 = some t) : t.Raised Q pc here := by
  fun_induction storeRegisters m addr rs with
  | case1 => cases h
  | case2 m addr r rs m' hs ih =>
    refine ih ?_ h
    have hkeeps := keeps_store hlast hQ addr .word (m.core.read r)
    rwa [hs] at hkeeps
  | case3 m addr r rs m' trap hs =>
    cases h
    exact raised_of_store hQ (congrArg Prod.snd hs)

theorem raised_of_loadRegisters {addr : Address} {rs : List Register} (hQ : Q m.bus)
    (h : (m.loadRegisters addr rs).2 = some t) : t.Raised Q pc here := by
  fun_induction loadRegisters m addr rs with
  | case1 => cases h
  | case2 m addr r rs v hv ih => exact ih hQ h
  | case3 m addr r rs trap hl =>
    cases h
    exact raised_of_load hQ hl

/-! ## Intrinsics -/

theorem raised_of_restore {kind : ContextKind} (h : (m.restore kind).2 = some t) :
    t.Raised Q pc m.core.pc := by
  unfold restore Core.restoreContext at h
  cases hf : m.core.frames with
  | nil =>
    rw [hf] at h
    cases h
    exact .contextUnderflow
  | cons frame frames => rw [hf] at h; cases h

theorem raised_of_intrinsic (hlast : Lasting Q) {i : Intrinsic} {outputs : List Register}
    {args : List Value} (hQ : Q m.bus) (h : (m.intrinsic pc i outputs args).2 = some t) :
    t.Raised Q pc m.core.pc := by
  cases i with
  | restoreUpperContext | restoreLowerContext => exact raised_of_restore h
  | storeUpperContext | storeLowerContext => exact raised_of_storeRegisters hlast hQ h
  | loadUpperContext | loadLowerContext => exact raised_of_loadRegisters hQ h
  | breakpoint => cases h; exact .breakpoint
  | syscall => cases h; exact .syscall _
  | overflowTrap => cases h; exact .overflow
  | saveUpperContext | saveLowerContext | bisr | mfcr | mtcr | enableInterrupts
  | disableInterrupts | disableInterruptsSaving | restoreInterrupts | dsync | isync | wait
  | cacheWriteback | cacheWritebackInvalidate | cacheInvalidate | tlbDemap | tlbFlushA | tlbFlushB
  | tlbProbeA | tlbProbeI | tlbMap | bitReverseStep | parity | bmerge | bsplit => cases h
  -- The others are not modeled and trap with their own name.
  | _ => cases h; exact .unmodeled _

end Machine

/-! ## Statements -/

theorem bind_eq_error {ε α γ : Type} {x : Except ε α} {f : α → Except ε γ} {e : ε}
    (h : x >>= f = .error e) : x = .error e ∨ ∃ a, x = .ok a ∧ f a = .error e := by
  cases x with
  | error e' => cases h; exact .inl rfl
  | ok a => exact .inr ⟨a, rfl, h⟩

mutual

/-- Evaluation traps only where it loads. -/
theorem Expr.raised_of_eval (hQ : Q m.bus) : ∀ e : Expr, e.eval m = .error t → t.Raised Q pc here
  | .const _ _, h | .reg _, h | .flag _, h => by simp [eval] at h
  | .load w addr, h => by
    rw [eval] at h
    rcases bind_eq_error h with h | ⟨a, -, h⟩
    · exact raised_of_eval hQ addr h
    · exact Machine.raised_of_load hQ h
  | .unary _ _ arg, h | .extend _ _ arg, h | .low _ arg, h => by
    rw [eval] at h
    rcases bind_eq_error h with h | ⟨a, -, h⟩
    · exact raised_of_eval hQ arg h
    · cases h
  | .binary _ _ lhs rhs, h | .compare _ _ lhs rhs, h => by
    rw [eval] at h
    rcases bind_eq_error h with h | ⟨a, -, h⟩
    · exact raised_of_eval hQ lhs h
    · rcases bind_eq_error h with h | ⟨b, -, h⟩
      · exact raised_of_eval hQ rhs h
      · cases h
  | .floatStatus _ _ args, h => by
    rw [eval] at h
    rcases bind_eq_error h with h | ⟨a, -, h⟩
    · exact raised_of_evalList hQ args h
    · cases h

theorem Expr.raised_of_evalList (hQ : Q m.bus) :
    ∀ es : List Expr, evalList m es = .error t → t.Raised Q pc here
  | [], h => by simp [evalList] at h
  | e :: es, h => by
    rw [evalList] at h
    rcases bind_eq_error h with h | ⟨a, -, h⟩
    · exact raised_of_eval hQ e h
    · rcases bind_eq_error h with h | ⟨b, -, h⟩
      · exact raised_of_evalList hQ es h
      · cases h

end

theorem Next.trap_of_ofTrap? {trap? : Option Trap} (h : ofTrap? trap? = .trap t) :
    trap? = some t := by
  cases trap? with
  | none => cases h
  | some trap => cases h; rfl

namespace Stmt

variable {stmt : Stmt}

/-- A statement raises no other trap. -/
theorem raised_of_exec (hlast : Lasting Q) (hQ : Q m.bus) (h : (stmt.exec pc m).2 = .trap t) :
    t.Raised Q pc m.core.pc := by
  cases stmt with
  | setReg _ e | setFlag _ e | jump e | call e | ret e | branch e =>
    cases he : e.eval m with
    | ok v => simp only [exec, he] at h; cases h
    | error trap =>
      simp only [exec, he] at h
      cases h
      exact e.raised_of_eval hQ he
  | store w addr value =>
    cases hx : addr.eval m with
    | error trap =>
      simp only [exec, hx] at h
      cases h
      exact addr.raised_of_eval hQ hx
    | ok x =>
      cases hv : value.eval m with
      | error trap =>
        simp only [exec, hx, hv] at h
        cases h
        exact value.raised_of_eval hQ hv
      | ok v =>
        simp only [exec, hx, hv] at h
        exact Machine.raised_of_store hQ (Next.trap_of_ofTrap? h)
  | intrinsic i outputs inputs =>
    cases hargs : Expr.evalList m inputs with
    | error trap =>
      simp only [exec, hargs] at h
      cases h
      exact Expr.raised_of_evalList hQ inputs hargs
    | ok args =>
      simp only [exec, hargs] at h
      exact Machine.raised_of_intrinsic hlast hQ (Next.trap_of_ofTrap? h)
  | undefined => cases h; exact .undefined
  | goto | mark | nop => cases h

/-- What every write keeps, every statement keeps. -/
theorem keeps_exec (hlast : Lasting Q) (hQ : Q m.bus) : Q (stmt.exec pc m).1.bus := by
  cases hs : stmt.stores with
  | false => rwa [bus_exec hs]
  | true =>
    cases stmt with
    | store w addr value =>
      simp only [exec]
      split
      · exact hQ
      · split
        · exact hQ
        · exact Machine.keeps_store hlast hQ ..
    | intrinsic i outputs inputs =>
      simp only [exec]
      split
      · cases i with
        | storeUpperContext | storeLowerContext => exact Machine.keeps_storeRegisters hlast hQ
        | _ => cases hs
      · exact hQ
    | _ => cases hs

end Stmt

end Raised

end Tricore
