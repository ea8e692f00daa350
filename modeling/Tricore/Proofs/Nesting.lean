import Mathlib
import Tricore.Memory.Window
import Tricore.Proofs.Contexts

/-!
# Calls and returns

A call saves the upper context and leaves the address after it in the link register; a return goes
where that register says and restores the context. So a return from a callee that has left both as it
found them resumes the caller: the registers of the upper context and the saved contexts are again
what they were at the call, and the others are the callee's (`call_return_nests`).

`WellNested` runs, in which calls and returns come in pairs, leave both as they found them, however
deep the pairs are nested (`WellNested.keeps`).
-/

namespace Tricore

namespace Instruction

/-- A call that saves the context: `call`, `calla` and `calli`. -/
def calls (i : Instruction) : Bool :=
  match i.row.action with
  | .call | .callIndirect => true
  | _ => false

/-- A return that restores the context: `ret` and `rfe`. -/
def returns (i : Instruction) : Bool :=
  match i.row.action with
  | .ret | .retException => true
  | _ => false

end Instruction

/-- The core is back in the caller, as it was at the call, with what the callee left in the
registers that no call saves. -/
structure Core.Resumes (caller callee c : Core) : Prop where
  frames : c.frames = caller.frames
  pcxi : c.pcxi = caller.pcxi
  psw : c.psw = caller.psw
  upperData : ∀ n, 8 ≤ n → n < 16 → c.read (.d n) = caller.read (.d n)
  upperAddress : ∀ n, 10 ≤ n → n < 16 → c.read (.a n) = caller.read (.a n)
  lowerData : ∀ n < 8, c.read (.d n) = callee.read (.d n)
  lowerAddress : ∀ n < 10, c.read (.a n) = callee.read (.a n)

/-! ## Calls -/

namespace Machine

variable {β : Type} {m : Machine β}

/-- What a call leaves behind: the saved context and the link. -/
structure Called (m m' : Machine β) (next : Address) : Prop where
  frames : m'.core.frames = m.core.saved .upper :: m.core.frames
  link : m'.core.read .link = next.setWidth 64

theorem called_of_linked {c : Core} {next : Address} {v : Value} {bus : β}
    (hframes : c.frames = m.core.frames)
    (hc : c.d = m.core.d ∧ c.a = m.core.a ∧ c.psw = m.core.psw ∧ c.pcxi = m.core.pcxi) :
    m.Called ⟨((c.saveContext .upper).write .link (next.setWidth 64)).write .pc v, bus⟩ next where
  frames := by
    rw [Core.frames_write, Core.frames_write, ← hframes, ← Core.saved_congr .upper hc]
    rfl
  link := by
    rw [Core.read_write (x := .link) (show 11 < 16 by decide) (by decide)]
    exact (Core.read_write_self rfl).trans (by simp)

variable [Bus β] {isa : Isa} {i : Instruction}

/-- The context is saved before the link register is set. -/
theorem run_saveAndLink {pc next : Address} {code : List Stmt} (rest : List Stmt) (fuel : Nat) :
    m.run pc code (fuel + 1 + 1) (.intrinsic .saveUpperContext [.pcxi] [] ::
      .setReg .link (.word next) :: rest) =
    (m.withCore fun c => (c.saveContext .upper).write .link (next.setWidth 64)).run
      pc code fuel rest := by
  rw [run]
  simp only [Stmt.exec, Expr.evalList, intrinsic, Next.ofTrap?]
  rw [run]
  simp only [Stmt.exec, Expr.eval_word]
  rfl

theorem called_of_step (hi : m.instruction? isa = some i) (hc : i.calls = true) :
    (m.step isa).2 = .done ∧ m.Called (m.step isa).1 i.next := by
  obtain ⟨bytes, hf, hd⟩ := instruction?_eq_some.1 hi
  unfold Instruction.calls at hc
  split at hc
  · next ha =>
    obtain ⟨t, ht, -⟩ := Instruction.target_of_leaves hd (ha ▸ rfl) (ha ▸ rfl)
    have hp : i.plan = Lift.emitting (do Lift.saveAndLink i.next; Lift.emit (.call (.word t))) := by
      rw [Instruction.plan, ha]
      show Lift.Plan.callDirect _ _ = _
      rw [Lift.Plan.callDirect, ht]
      rfl
    have hstep : m.step isa = (⟨(((m.start i).core.saveContext .upper).write .link
        (i.next.setWidth 64)).write .pc (t.setWidth 64), m.bus⟩, .done) := by
      rw [step_of_plan hf hd hp]
      refine (run_saveAndLink [.call (.word t)] 1).trans ?_
      rw [run]
      simp only [Stmt.exec, Expr.eval_word]
      rfl
    rw [hstep]
    exact ⟨rfl, called_of_linked rfl ⟨rfl, rfl, rfl, rfl⟩⟩
  · next ha =>
    obtain ⟨r, -, hr, -⟩ := Instruction.register_of_leaves hd (ha ▸ rfl) (ha ▸ rfl)
    have hp : i.plan = Lift.emitting (do
        let dest ← Lift.temp (.aligned r)
        Lift.saveAndLink i.next
        Lift.emit (.call dest)) := by
      rw [Instruction.plan, ha]
      show Lift.Plan.callThrough _ _ = _
      rw [Lift.Plan.callThrough, hr]
      rfl
    -- Where to go is kept in a temporary, which is no part of a context.
    obtain ⟨v, hv, -⟩ := Expr.eval_aligned (m.start i) r
    let linked : Core := (((m.start i).core.write (.temp 0) v).saveContext .upper).write .link
      (i.next.setWidth 64)
    have hstep : m.step isa = (⟨linked.write .pc (linked.read (.temp 0)), m.bus⟩, .done) := by
      rw [step_of_plan hf hd hp]
      show (m.start i).run i.addr _ (3 + 1) (.setReg (.temp 0) (.aligned r) :: _) = _
      rw [run]
      simp only [Stmt.exec, hv]
      exact run_saveAndLink [.call (.reg (.temp 0))] 1
    rw [hstep]
    exact ⟨rfl, called_of_linked rfl ⟨rfl, rfl, rfl, rfl⟩⟩
  · cases hc

end Machine

/-! ## Returns -/

namespace Core

/-- Restoring what the caller saved, and going on elsewhere, resumes the caller. -/
theorem resumes_of_loadContext {caller callee c : Core} {v : Value}
    (hframes : c.frames = caller.frames) (hd : c.d = callee.d) (ha : c.a = callee.a) :
    caller.Resumes callee ((c.loadContext .upper (caller.saved .upper).words).write .pc v) := by
  have hsaved {r : Register} (hr : r ∈ ContextKind.upper.layout.toList) :
      ((c.loadContext .upper (caller.saved .upper).words).write .pc v).read r = caller.read r := by
    have hcontext := ContextKind.inContext_of_mem .upper r hr
    rw [read_write (Register.isCell_of_inContext hcontext), read_loadContext_saved c hr]
    rintro hpc
    rw [List.mem_singleton.1 hpc] at hcontext
    cases hcontext
  have hkept {r : Register} (hr : r.IsCell) (hp : r ≠ .pc)
      (hn : r ∉ ContextKind.upper.layout.toList) :
      ((c.loadContext .upper (caller.saved .upper).words).write .pc v).read r = c.read r := by
    rw [read_write (r := .pc) hr (List.mem_singleton.not.2 hp), read_loadContext hr hn]
  refine ⟨?_, ?_, ?_, ?_, ?_, ?_, ?_⟩
  · rw [frames_write, frames_loadContext, hframes]
  · simpa [read, Register.canonical] using congrArg (BitVec.setWidth 32) (hsaved (r := .pcxi) (by decide))
  · simpa [read, Register.canonical] using congrArg (BitVec.setWidth 32) (hsaved (r := .psw) (by decide))
  · intro n hlow hn
    have hmem : ∀ n < 16, 8 ≤ n → .d n ∈ ContextKind.upper.layout.toList := by decide
    exact hsaved (hmem n hn hlow)
  · intro n hlow hn
    have hmem : ∀ n < 16, 10 ≤ n → .a n ∈ ContextKind.upper.layout.toList := by decide
    exact hsaved (hmem n hn hlow)
  · intro n hn
    have hmem : ∀ n < 8, .d n ∉ ContextKind.upper.layout.toList := by decide
    have hpc : Register.d n ≠ .pc := by rintro ⟨⟩
    rw [hkept (r := .d n) (show n < 16 by omega) hpc (hmem n hn)]
    simp [read, Register.canonical, hd]
  · intro n hn
    have hmem : ∀ n < 10, .a n ∉ ContextKind.upper.layout.toList := by decide
    have hpc : Register.a n ≠ .pc := by rintro ⟨⟩
    rw [hkept (r := .a n) (show n < 16 by omega) hpc (hmem n hn)]
    simp [read, Register.canonical, ha]

end Core

namespace Machine

variable {β : Type} [Bus β] {isa : Isa} {m : Machine β} {i : Instruction}

theorem plan_of_returns (hr : i.returns = true) : i.plan = Lift.emitting (do
    let dest ← Lift.temp (.aligned .link)
    Lift.intrinsic .restoreUpperContext Lift.upperRegisters []
    Lift.emit (.ret dest)) := by
  unfold Instruction.returns at hr
  split at hr
  · next ha => rw [Instruction.plan, ha]; rfl
  · next ha => rw [Instruction.plan, ha]; rfl
  · cases hr

/-- A return with a context to restore completes. -/
theorem resumes_of_step {caller : Core} (hi : m.instruction? isa = some i) (hr : i.returns = true)
    (hframes : m.core.frames = caller.saved .upper :: caller.frames) :
    (m.step isa).2 = .done ∧ (m.step isa).1.core.pc = m.core.destination .link ∧
      caller.Resumes m.core (m.step isa).1.core := by
  obtain ⟨bytes, hf, hd⟩ := instruction?_eq_some.1 hi
  have hp := plan_of_returns hr
  obtain ⟨v, hv, -⟩ := Expr.eval_aligned (m.start i) .link
  let kept : Core := { (m.start i).core.write (.temp 0) v with frames := caller.frames }
  let restored : Core := kept.loadContext .upper (caller.saved .upper).words
  have hrestore : (m.start i |>.withCore (·.write (.temp 0) v)).restore .upper =
      (⟨restored, m.bus⟩, none) := by
    have hf : ((m.start i).core.write (.temp 0) v).frames =
        caller.saved .upper :: caller.frames := hframes
    simp only [restore, withCore, Core.restoreContext, hf]
    rfl
  have hstep : m.step isa =
      (⟨restored.write .pc (restored.read (.temp 0)), m.bus⟩, .done) := by
    rw [step_of_plan hf hd hp]
    show (m.start i).run i.addr _ (2 + 1) (.setReg (.temp 0) (.aligned .link) :: _) = _
    rw [run]
    simp only [Stmt.exec, hv]
    show run i.addr _ (1 + 1) (.intrinsic .restoreUpperContext _ [] :: _) _ = _
    rw [run]
    simp only [Stmt.exec, Expr.evalList, intrinsic, hrestore, Next.ofTrap?]
    rfl
  have hdone : (m.step isa).2 = .done := by rw [hstep]
  refine ⟨hdone, ?_, ?_⟩
  · exact Instruction.pc_of_ret hf hd hdone Lift.links_restoreUpper hp
  · rw [hstep]
    exact Core.resumes_of_loadContext rfl rfl rfl

end Machine

/-! ## Nesting -/

/-- A run in which every call is paired with a return and no other instruction saves or restores a
context; between the pairs the link register is left alone. -/
inductive WellNested {β : Type} [Bus β] (isa : Isa) : Machine β → Machine β → Prop
  | done (m : Machine β) : WellNested isa m m
  | work {m m' : Machine β} {i : Instruction} (hi : m.instruction? isa = some i)
    (hm : i.row.action.moves = false)
    (hlink : (m.step isa).1.core.read .link = m.core.read .link)
    (rest : WellNested isa (m.step isa).1 m') : WellNested isa m m'
  | call {m m₁ m' : Machine β} {i j : Instruction} (hi : m.instruction? isa = some i)
    (hc : i.calls = true) (body : WellNested isa (m.step isa).1 m₁)
    (hj : m₁.instruction? isa = some j) (hr : j.returns = true)
    (rest : WellNested isa (m₁.step isa).1 m') : WellNested isa m m'

/-- A well-nested run leaves the saved contexts and the link register as they were. -/
theorem WellNested.keeps {β : Type} [Bus β] {isa : Isa} {m m' : Machine β}
    (h : WellNested isa m m') :
    m'.core.frames = m.core.frames ∧ m'.core.read .link = m.core.read .link := by
  induction h with
  | done => exact ⟨rfl, rfl⟩
  | work hi hm hlink rest ih =>
    exact ⟨ih.1.trans (Machine.frames_step hi hm), ih.2.trans hlink⟩
  | call hi hc body hj hr rest ihbody ihrest =>
    -- The inner return finds what the inner call has saved.
    obtain ⟨-, hcalled⟩ := Machine.called_of_step hi hc
    obtain ⟨-, -, hresumes⟩ := Machine.resumes_of_step hj hr (ihbody.1.trans hcalled.frames)
    exact ⟨ihrest.1.trans hresumes.frames,
      ihrest.2.trans (hresumes.upperAddress 11 (by omega) (by omega))⟩

/-- The instruction after one at an even address is at an even address. -/
theorem Instruction.next_even {isa : Isa} {bytes : List Byte} {addr : Address} {i : Instruction}
    (h : decode isa bytes addr = .ok i) (heven : addr.getLsbD 0 = false) :
    i.next &&& ~~~1 = i.next := by
  obtain ⟨e, -, haddr, hlength, -⟩ := of_decode h
  have hbit : i.next.getLsbD 0 = false := by
    rw [next, haddr, hlength, Encoding.length]
    split <;> rw [BitVec.getLsbD_add (by omega), heven] <;> simp
  refine BitVec.eq_of_getLsbD_eq fun k hk => ?_
  rw [BitVec.getLsbD_and, BitVec.getLsbD_not]
  by_cases h0 : k = 0
  · rw [h0, hbit, Bool.false_and]
  · have hone : (1 : BitVec 32).getLsbD k = false := by simp [h0, BitVec.getLsbD_one]
    rw [hone]
    simp [hk]

/-- Calls and returns nest. A call completes; a well-nested run from there leaves the saved contexts
and the link register as the call has left them; and whenever they are so, a return completes, goes
on after the call and resumes the caller. -/
theorem call_return_nests {β : Type} [Bus β] (isa : Isa) (m : Machine β) {i : Instruction}
    (hi : m.instruction? isa = some i) (hc : i.calls = true)
    (heven : m.core.pc.getLsbD 0 = false) :
    (m.step isa).2 = .done ∧
      (∀ m₂, WellNested isa (m.step isa).1 m₂ →
        m₂.core.frames = (m.step isa).1.core.frames ∧
          m₂.core.read .link = i.next.setWidth 64) ∧
      ∀ (m₂ : Machine β) (j : Instruction), m₂.core.frames = (m.step isa).1.core.frames →
        m₂.core.read .link = i.next.setWidth 64 →
        m₂.instruction? isa = some j → j.returns = true →
        (m₂.step isa).2 = .done ∧ (m₂.step isa).1.core.pc = i.next ∧
          m.core.Resumes m₂.core (m₂.step isa).1.core := by
  obtain ⟨hdone, hcalled⟩ := Machine.called_of_step hi hc
  refine ⟨hdone, fun m₂ hnested => ?_, fun m₂ j hframes hlink hj hr => ?_⟩
  · exact ⟨hnested.keeps.1, hnested.keeps.2.trans hcalled.link⟩
  · obtain ⟨hret, hpc, hresumes⟩ := Machine.resumes_of_step hj hr (hframes.trans hcalled.frames)
    obtain ⟨bytes, -, hd⟩ := Machine.instruction?_eq_some.1 hi
    refine ⟨hret, ?_, hresumes⟩
    rw [hpc, Core.destination, hlink, BitVec.setWidth_setWidth_of_le _ (by omega),
      BitVec.setWidth_eq, Instruction.next_even hd heven]

/-- A call to `0x10`, which calls `0x20` and then overwrites `d8` and `d0`:
`call; mov d8, 3; mov d0, 5; ret`. At `0x20` there is a `ret`. -/
def nestedCalls : Machine Window where
  core := { d := .replicate 16 7, a := .replicate 16 9, psw := 0xB80 }
  bus :=
    let outer : Store := .putAll .empty 0 [0x6D, 0, 8, 0]
    let inner := outer.putAll 0x10 [0x6D, 0, 8, 0, 0x82, 0x38, 0x82, 0x50, 0, 0x90]
    { base := 0, size := 64, bytes := inner.putAll 0x20 [0, 0x90] }

theorem call_return_nests_inner :
    (nestedCalls.after .v16 6).core.pc = 4 ∧
      nestedCalls.core.Resumes (nestedCalls.after .v16 5).core (nestedCalls.after .v16 6).core ∧
      (nestedCalls.after .v16 6).core.read (.d 8) = 7 ∧
      (nestedCalls.after .v16 6).core.read (.d 0) = 5 := by
  have hdecoded (p : Instruction → Bool) (k : Nat)
      (h : ((nestedCalls.after .v16 k).instruction? .v16).any p = true) :
      ∃ i, (nestedCalls.after .v16 k).instruction? .v16 = some i ∧ p i = true := by
    simpa [Option.any_eq_true] using h
  have hmove (k : Nat) (h : ((nestedCalls.after .v16 k).instruction? .v16).any
      (!·.row.action.moves) = true) : ∃ i, (nestedCalls.after .v16 k).instruction? .v16 = some i ∧
      i.row.action.moves = false := by simpa using hdecoded _ k h
  obtain ⟨i, hi, hc⟩ := hdecoded (·.calls) 0 (by decide +kernel)
  obtain ⟨i₁, hi₁, hc₁⟩ := hdecoded (·.calls) 1 (by decide +kernel)
  obtain ⟨i₂, hi₂, hr₂⟩ := hdecoded (·.returns) 2 (by decide +kernel)
  obtain ⟨i₃, hi₃, hm₃⟩ := hmove 3 (by decide +kernel)
  obtain ⟨i₄, hi₄, hm₄⟩ := hmove 4 (by decide +kernel)
  obtain ⟨j, hj, hr⟩ := hdecoded (·.returns) 5 (by decide +kernel)
  have hnested : WellNested .v16 (nestedCalls.after .v16 1) (nestedCalls.after .v16 5) :=
    .call hi₁ hc₁ (.done _) hi₂ hr₂ (.work hi₃ hm₃ (by decide +kernel)
      (.work hi₄ hm₄ (by decide +kernel) (.done _)))
  obtain ⟨-, hkeeps, hreturns⟩ := call_return_nests .v16 nestedCalls hi hc rfl
  obtain ⟨hframes, hlink⟩ := hkeeps _ hnested
  obtain ⟨-, hpc, hresumes⟩ := hreturns _ j hframes hlink hj hr
  have hnext : i.next = 4 := by
    have : (nestedCalls.instruction? .v16).map (·.next) = some 4 := by decide +kernel
    rw [show nestedCalls.instruction? .v16 = some i from hi] at this
    exact Option.some.inj this
  exact ⟨hpc.trans hnext, hresumes, hresumes.upperData 8 (by omega) (by omega),
    (hresumes.lowerData 0 (by omega)).trans (by decide +kernel)⟩

end Tricore
