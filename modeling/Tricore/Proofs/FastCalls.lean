import Mathlib
import Tricore.Proofs.Exchanges
import Tricore.Proofs.Nesting

/-!
# Fast calls and returns

A fast call saves no context. It pushes the link register on the stack, which grows down, and leaves
the address after it in the link register; a fast return goes where the link register says and pops
the word on top of the stack into it. Each makes one access to memory, and completes exactly if the
window admits it (`Machine.step_fastCall`, `Machine.step_fastReturn`).

So a fast return from a callee that has left the stack pointer, the link register and the word on top
of the stack as it found them resumes the caller, and runs in which fast calls and returns come in
pairs leave them so, however deep the pairs are nested (`fast_calls_nest`).

A return that traps has done nothing. A call moves the stack pointer before it stores, so one that
traps leaves it below a word that was not pushed (`trapped_fast_calls_move_stack`).
-/

namespace Tricore

/-! ## Stack pointer and link -/

namespace Core

/-- The address in the stack pointer, which is that of the word on top of the stack. -/
def stackPointer (c : Core) : Address := Operand.word c (.reg .stackPointer)

/-- The address in the link register. -/
def link (c : Core) : Address := Operand.word c (.reg .link)

/-- The core with another stack pointer and another link. -/
def withStack (c : Core) (sp link : Address) : Core := (c.setA 10 sp).setA 11 link

theorem write_a (c : Core) (n : Nat) (w : Word) : c.write (.a n) (w.setWidth 64) = c.setA n w := by
  have hback : (w.setWidth 64).setWidth 32 = w := by simp
  simp only [write, Register.canonical, hback]

theorem word_setA_self (c : Core) {n : Nat} (hn : n < 16) (w : Word) :
    Operand.word (c.setA n w) (.reg (.a n)) = w := by
  have hread := read_setA_self c n w
  rw [Nat.mod_eq_of_lt hn] at hread
  rw [Operand.word, Operand.value, hread]
  simp

theorem word_setA (c : Core) {n k : Nat} (hk : k < 16) (hne : k ≠ n % 16) (w : Word) :
    Operand.word (c.setA n w) (.reg (.a k)) = Operand.word c (.reg (.a k)) := by
  rw [Operand.word, Operand.word, Operand.value, Operand.value,
    read_setA (x := .a k) hk fun heq => hne (Register.a.inj heq)]

theorem withStack_comm (c : Core) (sp link : Address) :
    (c.setA 11 link).setA 10 sp = c.withStack sp link := by
  simp only [withStack, setA]
  rw [Vector.set_comm _ _ (by decide)]

theorem stackPointer_withStack (c : Core) (sp link : Address) :
    (c.withStack sp link).stackPointer = sp := by
  rw [← withStack_comm]
  exact word_setA_self _ (by decide) sp

theorem link_withStack (c : Core) (sp link : Address) : (c.withStack sp link).link = link :=
  word_setA_self _ (by decide) link

end Core

namespace Instruction

/-- Where a call goes: to its target, or where its register says. -/
def Enters (i : Instruction) (c : Core) (dest : Address) : Prop :=
  i.target? = some dest ∨ ∃ r, i.firstRegister? = some r ∧ dest = c.destination r

/-- The mnemonics of fast calls. -/
def fastCalls : List String := ["fcall", "fcalla", "fcalli"]

end Instruction

theorem Opcode.fast_rows : ∀ g ∈ table, ∀ r ∈ g.rows,
    (r.mnemonic ∈ Instruction.fastCalls → r.action = .fastCall ∨ r.action = .fastCallIndirect) ∧
    (r.mnemonic = "fret" → r.action = .fastRet) := by
  decide +kernel

/-! ## Keeping the address to go to -/

namespace Machine

variable {pc : Address} {m : Machine Window} {i : Instruction}

/-- The machine when the address to go to has been kept in a temporary. -/
def keeping (m : Machine Window) (i : Instruction) (dest : Address) : Machine Window :=
  { m with core := { m.core with pc := i.next, temps := [(.temp 0, dest.setWidth 64)] } }

theorem executes_keeping {r : Register} (hr : r.Ordinary) :
    Executes pc [.setReg (.temp 0) (.aligned r)] (m.start i)
      (m.keeping i (m.core.destination r)) := by
  obtain ⟨v, hv, hdest⟩ := Expr.eval_aligned (m.start i) r
  have hsame : (m.start i).core.destination r = m.core.destination r := by
    rw [Core.destination, Core.destination, hr.read_start]
  refine .cons ?_ (.nil _)
  simp only [Stmt.exec, hv, withCore, Core.write, Register.canonical, hdest, hsame]
  rfl

theorem eval_kept {dest : Address} {m' : Machine Window}
    (h : m'.core.temps = (m.keeping i dest).core.temps) :
    (Expr.reg (.temp 0)).eval m' = .ok (dest.setWidth 64) := by
  simp only [Expr.eval, Core.read, Register.canonical, h, keeping, List.lookup_cons_self,
    Option.getD_some]

end Machine

/-! ## Calls -/

namespace Lift

/-- The statements of a fast call when it is known where it goes. -/
def pushing (next : Address) (e : Expr) : List Stmt :=
  [.setReg .stackPointer (.sub .word (.reg .stackPointer) (.const .word 4)),
    .store .word (.reg .stackPointer) (.reg .link), .setReg .link (.word next), .call e]

/-- The statements of a fast return when it is known where it goes. -/
def popping (e : Expr) : List Stmt :=
  [.setReg .link (.load .word (.reg .stackPointer)),
    .setReg .stackPointer (.add .word (.reg .stackPointer) (.const .word 4)), .ret e]

end Lift

namespace Machine

variable {pc next dest : Address} {isa : Isa} {m : Machine Window} {i : Instruction}

/-- The stack pointer has been moved down, and nothing has been stored there yet. -/
def lowered (m : Machine Window) : Machine Window :=
  m.withCore (·.setA 10 (m.core.stackPointer - 4))

theorem exec_lower (pc : Address) (m : Machine Window) :
    (Stmt.setReg .stackPointer (.sub .word (.reg .stackPointer) (.const .word 4))).exec pc m =
      (m.lowered, .next) := by
  have hword : Width.word.bits = 32 := rfl
  have hsp := ((Lift.yields_address m 10 0).sub (.const 4 hword) hword).eval m (.refl m 0)
  rw [Register.stackPointer]
  simp only [Stmt.exec, hsp, Core.write_a]
  rfl

theorem yields_lowered (m : Machine Window) :
    (Expr.reg .stackPointer).Yields m.lowered 0 (m.core.stackPointer - 4) := by
  have h := Lift.yields_address m.lowered 10 0
  rwa [lowered, withCore, Core.word_setA_self _ (by decide)] at h

theorem eval_link_lowered (m : Machine Window) :
    (Expr.reg .link).eval m.lowered = .ok (m.core.link.setWidth 64) := by
  have h := (Lift.yields_address m.lowered 11 0).eval m.lowered (.refl _ _)
  rwa [lowered, withCore, Core.word_setA _ (by decide) (by decide)] at h

theorem exec_push_refused (pc : Address) (h : ¬ m.bus.Admits (m.core.stackPointer - 4) .word) :
    (Stmt.store .word (.reg .stackPointer) (.reg .link)).exec pc m.lowered =
      (m.lowered, .trap (refusal (m.core.stackPointer - 4) .word)) := by
  have hsp := yields_lowered m
  simp only [Stmt.exec, hsp.eval _ (.refl _ _), hsp.back, eval_link_lowered,
    store_of_not_admits (m := m.lowered) _ h]
  rfl

theorem executes_pushing (pc : Address) {e : Expr} (h : m.bus.Admits (m.core.stackPointer - 4) .word)
    (he : ∀ m' : Machine Window, m'.core.temps = m.core.temps →
      e.eval m' = .ok (dest.setWidth 64)) :
    ∃ bus, m.bus.Receives (m.core.stackPointer - 4) 4 (m.core.link.setWidth 64) bus ∧
      Executes pc (Lift.pushing next e) m
        ⟨{ m.core.withStack (m.core.stackPointer - 4) next with pc := dest }, bus⟩ := by
  obtain ⟨bus, hstore, hreceives⟩ := exec_store pc (yields_lowered m) (eval_link_lowered m) rfl
    (show m.lowered.bus.Admits _ _ from h)
  let linked : Machine Window := ⟨m.core.withStack (m.core.stackPointer - 4) next, bus⟩
  have hlink : (Stmt.setReg .link (.word next)).exec pc { m.lowered with bus } =
      (linked, .next) := by
    rw [Register.link]
    simp only [Stmt.exec, Expr.eval_word, withCore, Core.write_a]
    rfl
  have hcall : (Stmt.call e).exec pc linked =
      ({ linked with core := { linked.core with pc := dest } }, .next) := by
    have hback : (dest.setWidth 64).setWidth 32 = dest := by simp
    simp only [Stmt.exec, he linked rfl, withCore, Core.write, Register.canonical, hback]
  exact ⟨bus, hreceives, .cons (exec_lower pc m) (.cons hstore (.cons hlink (.cons hcall (.nil _))))⟩

/-- The statements of a fast call. What they keep first is where to go, if that is in a register. -/
theorem code_fastCall (hi : m.instruction? isa = some i)
    (ha : i.row.action = .fastCall ∨ i.row.action = .fastCallIndirect) :
    ∃ kept e dest temps, i.Enters m.core dest ∧
      Executes i.addr kept (m.start i) { m with core := { m.core with pc := i.next, temps } } ∧
      (∀ m' : Machine Window, m'.core.temps = temps → e.eval m' = .ok (dest.setWidth 64)) ∧
      m.step isa = (m.start i).run i.addr (kept ++ Lift.pushing i.next e)
        (kept ++ Lift.pushing i.next e).length (kept ++ Lift.pushing i.next e) := by
  obtain ⟨bytes, hf, hd⟩ := instruction?_eq_some.1 hi
  rcases ha with ha | ha
  · obtain ⟨t, ht, htarget⟩ := Instruction.target_of_leaves hd (ha ▸ rfl) (ha ▸ rfl)
    have hp : i.plan = Lift.emitting (do Lift.pushLink i.next; Lift.emit (.call (.word t))) := by
      rw [Instruction.plan, ha]
      show Lift.Plan.callDirect _ _ = _
      rw [Lift.Plan.callDirect, ht]
      rfl
    exact ⟨[], .word t, t, [], .inl htarget, .nil _, fun _ _ => Expr.eval_word _ t,
      step_of_plan hf hd hp⟩
  · obtain ⟨r, hr, hreg, hfirst⟩ := Instruction.register_of_leaves hd (ha ▸ rfl) (ha ▸ rfl)
    have hp : i.plan = Lift.emitting (do
        let dest ← Lift.temp (.aligned r)
        Lift.pushLink i.next
        Lift.emit (.call dest)) := by
      rw [Instruction.plan, ha]
      show Lift.Plan.callThrough _ _ = _
      rw [Lift.Plan.callThrough, hreg]
      rfl
    exact ⟨[.setReg (.temp 0) (.aligned r)], .reg (.temp 0), m.core.destination r, _,
      .inr ⟨r, hfirst, rfl⟩, executes_keeping hr, fun _ h => eval_kept (m := m) (i := i) h,
      step_of_plan hf hd hp⟩

section Call

variable (hi : m.instruction? isa = some i)
  (ha : i.row.action = .fastCall ∨ i.row.action = .fastCallIndirect)
include hi ha

/-- A fast call that can push the link. -/
theorem step_fastCall (h : m.bus.Admits (m.core.stackPointer - 4) .word) :
    ∃ bus dest temps, i.Enters m.core dest ∧
      m.bus.Receives (m.core.stackPointer - 4) 4 (m.core.link.setWidth 64) bus ∧
      m.step isa = (⟨{ m.core.withStack (m.core.stackPointer - 4) i.next with
        pc := dest, temps }, bus⟩, .done) := by
  obtain ⟨kept, e, dest, temps, henters, hkept, he, hstep⟩ := code_fastCall hi ha
  obtain ⟨bus, hreceives, hpush⟩ := executes_pushing i.addr
    (m := { m with core := { m.core with pc := i.next, temps } }) h he
  exact ⟨bus, dest, temps, henters, hreceives, hstep.trans ((hkept.append hpush).run _)⟩

/-- A fast call that cannot. -/
theorem step_fastCall_refused (h : ¬ m.bus.Admits (m.core.stackPointer - 4) .word) :
    ∃ temps, m.step isa = (⟨{ m.core.setA 10 (m.core.stackPointer - 4) with
      pc := i.next, temps }, m.bus⟩, .trapped (refusal (m.core.stackPointer - 4) .word)) := by
  obtain ⟨kept, e, dest, temps, -, hkept, -, hstep⟩ := code_fastCall hi ha
  have hlower := hkept.append (.cons (exec_lower i.addr _) (.nil _))
  have htrap := exec_push_refused i.addr
    (m := { m with core := { m.core with pc := i.next, temps } }) h
  refine ⟨temps, hstep.trans ?_⟩
  rw [Lift.pushing, List.append_cons]
  exact hlower.run_trapped htrap _ _

end Call

/-! ## Returns -/

theorem executes_popping (pc : Address) {e : Expr} (h : m.bus.Admits m.core.stackPointer .word)
    (he : ∀ m' : Machine Window, m'.core.temps = m.core.temps →
      e.eval m' = .ok (dest.setWidth 64)) :
    Executes pc (Lift.popping e) m
      ⟨{ m.core.withStack (m.core.stackPointer + 4) (m.wordAt m.core.stackPointer) with
        pc := dest }, m.bus⟩ := by
  have hword : Width.word.bits = 32 := rfl
  let linked : Machine Window := m.withCore (·.setA 11 (m.wordAt m.core.stackPointer))
  let popped : Machine Window :=
    ⟨m.core.withStack (m.core.stackPointer + 4) (m.wordAt m.core.stackPointer), m.bus⟩
  have hload := (Access.yields_load (Lift.yields_address m 10 0) hword h).eval m (.refl m 0)
  have hlink : (Stmt.setReg .link (.load .word (.reg .stackPointer))).exec pc m =
      (linked, .next) := by
    rw [Register.stackPointer, Register.link]
    simp only [Stmt.exec, hload, Core.write_a]
    rfl
  have hsp : Operand.word linked.core (.reg (.a 10)) = m.core.stackPointer :=
    Core.word_setA _ (by decide) (by decide) _
  have hraise := ((Lift.yields_address linked 10 0).add (.const 4 hword) hword).eval linked
    (.refl _ 0)
  rw [hsp] at hraise
  have hpop : (Stmt.setReg .stackPointer
      (.add .word (.reg .stackPointer) (.const .word 4))).exec pc linked = (popped, .next) := by
    rw [Register.stackPointer]
    simp only [Stmt.exec, hraise, Core.write_a]
    exact congrArg (fun c => ((⟨c, m.bus⟩ : Machine Window), Next.next)) (Core.withStack_comm ..)
  have hret : (Stmt.ret e).exec pc popped =
      ({ popped with core := { popped.core with pc := dest } }, .next) := by
    have hback : (dest.setWidth 64).setWidth 32 = dest := by simp
    simp only [Stmt.exec, he popped rfl, withCore, Core.write, Register.canonical, hback]
  exact .cons hlink (.cons hpop (.cons hret (.nil _)))

section Return

variable (hi : m.instruction? isa = some i) (ha : i.row.action = .fastRet)
include hi ha

/-- The statements of a fast return. -/
theorem code_fastReturn : m.step isa = (m.start i).run i.addr
    ([.setReg (.temp 0) (.aligned .link)] ++ Lift.popping (.reg (.temp 0)))
    ([Stmt.setReg (.temp 0) (.aligned .link)] ++ Lift.popping (.reg (.temp 0))).length
    ([.setReg (.temp 0) (.aligned .link)] ++ Lift.popping (.reg (.temp 0))) := by
  obtain ⟨bytes, hf, hd⟩ := instruction?_eq_some.1 hi
  have hp : i.plan = Lift.Plan.fastRet := by rw [Instruction.plan, ha]; rfl
  exact step_of_plan hf hd hp

/-- A fast return that can pop the link. -/
theorem step_fastReturn (h : m.bus.Admits m.core.stackPointer .word) :
    ∃ temps, m.step isa = (⟨{ m.core.withStack (m.core.stackPointer + 4)
      (m.wordAt m.core.stackPointer) with pc := m.core.destination .link, temps }, m.bus⟩, .done) := by
  have hlink : Register.link.Ordinary := nofun
  have hpop := executes_popping i.addr (m := m.keeping i (m.core.destination .link)) h
    fun _ h => eval_kept h
  exact ⟨_, (code_fastReturn hi ha).trans (((executes_keeping hlink).append hpop).run _)⟩

/-- A fast return that cannot. -/
theorem step_fastReturn_refused (h : ¬ m.bus.Admits m.core.stackPointer .word) :
    ∃ temps, m.step isa = (⟨{ m.core with pc := i.next, temps }, m.bus⟩,
      .trapped (refusal m.core.stackPointer .word)) := by
  have hlink : Register.link.Ordinary := nofun
  let kept := m.keeping i (m.core.destination .link)
  have hload := eval_load_refused (Lift.yields_address kept 10 0) (w := .word) h
  have htrap : (Stmt.setReg .link (.load .word (.reg .stackPointer))).exec i.addr kept =
      (kept, .trap (refusal m.core.stackPointer .word)) := by
    rw [Register.stackPointer]
    simp only [Stmt.exec, hload]
    rfl
  refine ⟨kept.core.temps, (code_fastReturn hi ha).trans ?_⟩
  rw [Lift.popping]
  exact (executes_keeping hlink).run_trapped htrap _ _

end Return

end Machine

/-! ## Nesting -/

namespace Machine

variable {isa : Isa} {m m₁ m₂ : Machine Window} {i j : Instruction} {k : Nat}

/-- What a fast call leaves behind: the old link on top of the stack, and the new one. -/
structure Pushed (m m' : Machine Window) (next : Address) : Prop where
  admits : m.bus.Admits (m.core.stackPointer - 4) .word
  stackPointer : m'.core.stackPointer = m.core.stackPointer - 4
  link : m'.core.link = next
  frames : m'.core.frames = m.core.frames
  memory : m.bus.Receives (m.core.stackPointer - 4) 4 (m.core.link.setWidth 64) m'.bus

/-- The stack pointer, the link and the `k` words on top of the stack are as they were. -/
structure KeepsStack (k : Nat) (m m' : Machine Window) : Prop where
  stackPointer : m'.core.stackPointer = m.core.stackPointer
  link : m'.core.link = m.core.link
  words : ∀ n < k, m'.wordAt (m.core.stackPointer + .ofNat 32 (4 * n)) =
    m.wordAt (m.core.stackPointer + .ofNat 32 (4 * n))
  extent : m.bus.SameExtent m'.bus

theorem KeepsStack.refl (k : Nat) (m : Machine Window) : m.KeepsStack k m :=
  ⟨rfl, rfl, fun _ _ => rfl, rfl, rfl⟩

theorem KeepsStack.trans (h : m.KeepsStack k m₁) (h' : m₁.KeepsStack k m₂) :
    m.KeepsStack k m₂ where
  stackPointer := h'.stackPointer.trans h.stackPointer
  link := h'.link.trans h.link
  words n hn := by
    have hwords := h'.words n hn
    rw [h.stackPointer] at hwords
    exact hwords.trans (h.words n hn)
  extent := h.extent.trans h'.extent

theorem pushed_of_step (hi : m.instruction? isa = some i)
    (hcall : i.mnemonic ∈ Instruction.fastCalls) (hdone : (m.step isa).2 = .done) :
    m.Pushed (m.step isa).1 i.next ∧ i.Enters m.core (m.step isa).1.core.pc := by
  obtain ⟨g, hg, hr, -⟩ := Instruction.resolved hi
  have ha := (Opcode.fast_rows g hg _ hr).1 hcall
  by_cases h : m.bus.Admits (m.core.stackPointer - 4) .word
  · obtain ⟨bus, dest, temps, henters, hreceives, hstep⟩ := step_fastCall hi ha h
    rw [hstep]
    exact ⟨⟨h, Core.stackPointer_withStack .., Core.link_withStack .., rfl, hreceives⟩, henters⟩
  · obtain ⟨temps, hstep⟩ := step_fastCall_refused hi ha h
    rw [hstep] at hdone
    cases hdone

namespace Pushed

variable {next : Address} (h : m.Pushed m₁ next)
include h

theorem top : m₁.wordAt (m.core.stackPointer - 4) = m.core.link := by
  rw [wordAt, h.memory.number]
  have hlt := m.core.link.isLt
  exact BitVec.eq_of_toNat_eq (by simpa using hlt)

/-- The words that were on the stack are one place further from its top. -/
theorem place (n : Nat) : m₁.core.stackPointer + .ofNat 32 (4 * (n + 1)) =
    m.core.stackPointer + .ofNat 32 (4 * n) := by
  rw [h.stackPointer]
  bv_omega

theorem below {n : Nat} (hn : 4 * (n + 2) ≤ 2 ^ 32) :
    m₁.wordAt (m.core.stackPointer + .ofNat 32 (4 * n)) =
      m.wordAt (m.core.stackPointer + .ofNat 32 (4 * n)) := by
  rw [wordAt, wordAt, h.memory.number_apart (by bv_omega) (by bv_omega)]

/-- A fast return takes back what the call has left, if it finds it as it was left. -/
theorem returned (hkeeps : m₁.KeepsStack (k + 1) m₂) (hj : m₂.instruction? isa = some j)
    (hret : j.mnemonic = "fret") : ∃ temps, m₂.step isa =
      (⟨{ m₂.core.withStack m.core.stackPointer m.core.link with
        pc := next &&& ~~~1, temps }, m₂.bus⟩, .done) := by
  obtain ⟨g, hg, hr, -⟩ := Instruction.resolved hj
  have ha := (Opcode.fast_rows g hg _ hr).2 hret
  have hsp : m₂.core.stackPointer = m.core.stackPointer - 4 :=
    hkeeps.stackPointer.trans h.stackPointer
  have hraised : m.core.stackPointer - 4 + 4 = m.core.stackPointer := by bv_omega
  have hextent : m.bus.SameExtent m₂.bus := h.memory.extent.trans hkeeps.extent
  have htop : m₂.wordAt (m.core.stackPointer - 4) = m.core.link := by
    have hword := hkeeps.words 0 (by omega)
    rw [h.stackPointer] at hword
    simp only [Nat.mul_zero, BitVec.ofNat_eq_ofNat, BitVec.add_zero] at hword
    exact hword.trans h.top
  have hpc : m₂.core.destination .link = next &&& ~~~1 :=
    congrArg (· &&& ~~~1) (hkeeps.link.trans h.link)
  obtain ⟨temps, hstep⟩ := step_fastReturn hj ha (hsp ▸ hextent.admits h.admits)
  rw [hsp, htop, hraised, hpc] at hstep
  exact ⟨temps, hstep⟩

end Pushed

end Machine

/-- A run in which every fast call is paired with a fast return and no other instruction touches the
stack pointer, the link or the `k` words on top of the stack. -/
inductive FastNested (isa : Isa) : Nat → Machine Window → Machine Window → Prop
  | done (k : Nat) (m : Machine Window) : FastNested isa k m m
  | work {k : Nat} {m m' : Machine Window} {i : Instruction} (hi : m.instruction? isa = some i)
    (hkeeps : m.KeepsStack k (m.step isa).1) (rest : FastNested isa k (m.step isa).1 m') :
    FastNested isa k m m'
  | call {k : Nat} {m m₁ m' : Machine Window} {i j : Instruction}
    (hi : m.instruction? isa = some i) (hcall : i.mnemonic ∈ Instruction.fastCalls)
    (hdone : (m.step isa).2 = .done)
    -- A stack as large as the address space would run into itself.
    (hroom : 4 * (k + 1) ≤ 2 ^ 32) (body : FastNested isa (k + 1) (m.step isa).1 m₁)
    (hj : m₁.instruction? isa = some j) (hret : j.mnemonic = "fret")
    (rest : FastNested isa k (m₁.step isa).1 m') : FastNested isa k m m'

/-- A nested run leaves the stack as it was. -/
theorem FastNested.keeps {isa : Isa} {k : Nat} {m m' : Machine Window}
    (h : FastNested isa k m m') : m.KeepsStack k m' := by
  induction h with
  | done k m => exact .refl k m
  | work hi hkeeps rest ih => exact hkeeps.trans ih
  | @call k m m₁ m' i j hi hcall hdone hroom body hj hret rest ihbody ihrest =>
    refine Machine.KeepsStack.trans ?_ ihrest
    obtain ⟨hpushed, -⟩ := Machine.pushed_of_step hi hcall hdone
    obtain ⟨temps, hstep⟩ := hpushed.returned ihbody hj hret
    rw [hstep]
    refine ⟨Core.stackPointer_withStack .., Core.link_withStack .., fun n hn => ?_,
      hpushed.memory.extent.trans ihbody.extent⟩
    -- The inner call and the inner run each leave the words that are below the inner link.
    have hinner := ihbody.words (n + 1) (by omega)
    rw [hpushed.place n] at hinner
    exact hinner.trans (hpushed.below (by omega))

/-- Fast calls and returns nest. A fast call that completes has pushed the link and set it to the
address after the call; a nested run from there leaves the stack as the call has left it; and whenever
the stack pointer, the link and the word on top are so, a fast return completes and goes on after the
call with the caller's stack pointer and link, and with all else as it finds it. -/
theorem fast_calls_nest (isa : Isa) (m : Machine Window) {i : Instruction}
    (hi : m.instruction? isa = some i) (hcall : i.mnemonic ∈ Instruction.fastCalls)
    (heven : m.core.pc.getLsbD 0 = false) (hdone : (m.step isa).2 = .done) :
    (m.step isa).1.core.stackPointer = m.core.stackPointer - 4 ∧
      (m.step isa).1.wordAt (m.core.stackPointer - 4) = m.core.link ∧
      (m.step isa).1.core.link = i.next ∧
      (m.step isa).1.core.frames = m.core.frames ∧
      i.Enters m.core (m.step isa).1.core.pc ∧
      (∀ m₂, FastNested isa 1 (m.step isa).1 m₂ → (m.step isa).1.KeepsStack 1 m₂) ∧
      ∀ (m₂ : Machine Window) (j : Instruction), (m.step isa).1.KeepsStack 1 m₂ →
        m₂.instruction? isa = some j → j.mnemonic = "fret" →
        ∃ temps, m₂.step isa = ({ m₂ with core :=
          { m₂.core.withStack m.core.stackPointer m.core.link with pc := i.next, temps } },
            .done) := by
  obtain ⟨hpushed, henters⟩ := Machine.pushed_of_step hi hcall hdone
  refine ⟨hpushed.stackPointer, hpushed.top, hpushed.link, hpushed.frames, henters,
    fun m₂ hnested => hnested.keeps, fun m₂ j hkeeps hj hret => ?_⟩
  obtain ⟨bytes, -, hd⟩ := Machine.instruction?_eq_some.1 hi
  have hreturned := hpushed.returned hkeeps hj hret
  rwa [Instruction.next_even hd heven] at hreturned

/-- `fcalli a11` to `0x10`, which is `fcall; mov d0, 5; fret`. At `0x20`, where the inner call goes,
there is a `fret`. -/
def nestedFastCalls : Machine Window where
  core := ({} : Core).withStack 64 0x10
  bus :=
    let outer : Store := .putAll .empty 0 [0x2D, 0x0B, 0x10, 0]
    let inner := outer.putAll 0x10 [0x61, 0, 8, 0, 0x82, 0x50, 0, 0x70]
    { base := 0, size := 64, bytes := inner.putAll 0x20 [0, 0x70] }

theorem fast_calls_nest_through_link :
    (nestedFastCalls.after .v16 1).wordAt 60 = 0x10 ∧
      ∃ temps, nestedFastCalls.after .v16 5 = { nestedFastCalls.after .v16 4 with core :=
        { (nestedFastCalls.after .v16 4).core.withStack 64 0x10 with pc := 4, temps } } := by
  have hdecoded (name : String) (k : Nat)
      (h : ((nestedFastCalls.after .v16 k).instruction? .v16).any (·.mnemonic = name) = true) :
      ∃ i, (nestedFastCalls.after .v16 k).instruction? .v16 = some i ∧ i.mnemonic = name := by
    simpa [Option.any_eq_true] using h
  obtain ⟨i, hi, hcall⟩ := hdecoded "fcalli" 0 (by decide +kernel)
  obtain ⟨i₁, hi₁, hcall₁⟩ := hdecoded "fcall" 1 (by decide +kernel)
  obtain ⟨i₂, hi₂, hret₂⟩ := hdecoded "fret" 2 (by decide +kernel)
  obtain ⟨i₃, hi₃, -⟩ := hdecoded "mov" 3 (by decide +kernel)
  obtain ⟨j, hj, hret⟩ := hdecoded "fret" 4 (by decide +kernel)
  have hmove : (nestedFastCalls.after .v16 3).KeepsStack 1 (nestedFastCalls.after .v16 4) :=
    ⟨by decide +kernel, by decide +kernel, by decide +kernel, by decide +kernel, by decide +kernel⟩
  have hnested : FastNested .v16 1 (nestedFastCalls.after .v16 1) (nestedFastCalls.after .v16 4) :=
    .call hi₁ (by simp [hcall₁, Instruction.fastCalls]) (by decide +kernel) (by decide) (.done _ _)
      hi₂ hret₂ (.work hi₃ hmove (.done _ _))
  obtain ⟨-, hword, -, -, -, hkeeps, hreturns⟩ := fast_calls_nest .v16 nestedFastCalls hi
    (by simp [hcall, Instruction.fastCalls]) rfl (by decide +kernel)
  obtain ⟨temps, hstep⟩ := hreturns _ j (hkeeps _ hnested) hj hret
  have hnext : i.next = 4 := by
    have hlength : (nestedFastCalls.instruction? .v16).map (·.next) = some 4 := by decide +kernel
    rw [show nestedFastCalls.instruction? .v16 = some i from hi] at hlength
    exact Option.some.inj hlength
  rw [hnext] at hstep
  exact ⟨hword, temps, congrArg Prod.fst hstep⟩

/-! ## Traps -/

/-- A fast call or return that traps was refused its access to the stack. A return has then changed
nothing, but a call has moved the stack pointer. -/
theorem trapped_fast_calls_move_stack (isa : Isa) (m : Machine Window) {i : Instruction} {t : Trap}
    (hi : m.instruction? isa = some i) (ht : (m.step isa).2 = .trapped t) :
    (i.mnemonic ∈ Instruction.fastCalls →
      t = Machine.refusal (m.core.stackPointer - 4) .word ∧
      ∃ temps, (m.step isa).1 = { m with core :=
        { m.core.setA 10 (m.core.stackPointer - 4) with pc := i.next, temps } }) ∧
    (i.mnemonic = "fret" →
      t = Machine.refusal m.core.stackPointer .word ∧
      ∃ temps, (m.step isa).1 = { m with core := { m.core with pc := i.next, temps } }) := by
  obtain ⟨g, hg, hr, -⟩ := Instruction.resolved hi
  refine ⟨fun hcall => ?_, fun hret => ?_⟩
  · have ha := (Opcode.fast_rows g hg _ hr).1 hcall
    by_cases h : m.bus.Admits (m.core.stackPointer - 4) .word
    · obtain ⟨bus, dest, temps, -, -, hstep⟩ := Machine.step_fastCall hi ha h
      rw [hstep] at ht
      cases ht
    · obtain ⟨temps, hstep⟩ := Machine.step_fastCall_refused hi ha h
      rw [hstep] at ht ⊢
      exact ⟨(Outcome.trapped.inj ht).symm, temps, rfl⟩
  · have ha := (Opcode.fast_rows g hg _ hr).2 hret
    by_cases h : m.bus.Admits m.core.stackPointer .word
    · obtain ⟨temps, hstep⟩ := Machine.step_fastReturn hi ha h
      rw [hstep] at ht
      cases ht
    · obtain ⟨temps, hstep⟩ := Machine.step_fastReturn_refused hi ha h
      rw [hstep] at ht ⊢
      exact ⟨(Outcome.trapped.inj ht).symm, temps, rfl⟩

/-- A program with its stack outside the window. -/
def unmappedStack (code : List Byte) : Machine Window where
  core := ({} : Core).withStack 64 7
  bus := { base := 0, size := 16, bytes := .putAll .empty 0 code }

theorem trapped_fast_calls_move_stack_unmapped :
    (∃ temps, ((unmappedStack [0x61, 0, 2, 0]).step .v16).1 =
      { unmappedStack [0x61, 0, 2, 0] with core :=
        { (unmappedStack [0x61, 0, 2, 0]).core.setA 10 60 with pc := 4, temps } }) ∧
    ∃ temps, ((unmappedStack [0, 0x70]).step .v16).1 =
      { unmappedStack [0, 0x70] with core :=
        { (unmappedStack [0, 0x70]).core with pc := 2, temps } } := by
  have hdecoded (code : List Byte) (name : String) (next : Address)
      (h : ((unmappedStack code).instruction? .v16).any
        (fun i => i.mnemonic = name ∧ i.next = next) = true) :
      ∃ i, (unmappedStack code).instruction? .v16 = some i ∧ i.mnemonic = name ∧ i.next = next := by
    simpa [Option.any_eq_true] using h
  obtain ⟨i, hi, hcall, hi4⟩ := hdecoded [0x61, 0, 2, 0] "fcall" 4 (by decide +kernel)
  obtain ⟨j, hj, hret, hj2⟩ := hdecoded [0, 0x70] "fret" 2 (by decide +kernel)
  obtain ⟨-, temps, hcalled⟩ := (trapped_fast_calls_move_stack .v16 _ hi
    (t := Machine.refusal 60 .word) (by decide +kernel)).1 (by simp [hcall, Instruction.fastCalls])
  obtain ⟨-, temps', hreturned⟩ := (trapped_fast_calls_move_stack .v16 _ hj
    (t := Machine.refusal 64 .word) (by decide +kernel)).2 hret
  rw [hi4] at hcalled
  rw [hj2] at hreturned
  exact ⟨⟨temps, hcalled⟩, temps', hreturned⟩

/-- A fast call that traps does not leave the registers as they were. -/
theorem trapped_fast_call_lowers_stack :
    ((unmappedStack [0x61, 0, 2, 0]).step .v16).2 = .trapped (.bus 60 (.outside 60 4)) ∧
      (unmappedStack [0x61, 0, 2, 0]).core.stackPointer = 64 ∧
      ((unmappedStack [0x61, 0, 2, 0]).step .v16).1.core.stackPointer = 60 := by
  decide +kernel

end Tricore
