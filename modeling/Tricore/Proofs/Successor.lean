import Mathlib
import Tricore.Memory.Window
import Tricore.Proofs.Execution
import Tricore.Proofs.Plans

/-!
# Where control goes

The edges of an instruction, which are read off its encoding, tell where its execution goes on:
after a step that completes, the program counter is where the edges lead from the core before the
step (`step_follows_edges`). `Follows` says where that is for each list of edges.

Most instructions leave the program counter alone. For each of the others, its plan is read off its
operands and the layout of its statements gives the program counter.
-/

namespace Tricore

/-! ## Destinations -/

namespace Register

/-- The offset at which a register of the core state can be written. -/
def offset? : Register → Option (BitVec 16)
  | pcxi => some 0xFE00
  | psw => some 0xFE04
  | pc => some 0xFE08
  | _ => none

theorem offset_of_canonical {offset o : BitVec 16} {r : Register}
    (h : canonical (.csfr offset) = r) (ho : r.offset? = some o) : offset = o := by
  cases hv : viewed? offset with
  | none =>
    simp only [canonical, hv, Option.getD_none] at h
    subst h
    cases ho
  | some r' =>
    simp only [canonical, hv, Option.getD_some] at h
    subst h
    simp only [viewed?] at hv
    split_ifs at hv <;> cases hv <;> cases ho
    all_goals exact BitVec.eq_of_toNat_eq ‹_›

end Register

namespace Instruction

/-- The condition that a conditional branch goes by, on the core before it. -/
def condition (i : Instruction) (c : Core) : Bool :=
  let word := fun (o : Operand) => (o.value c).setWidth 32
  match i.row.action, i.operands with
  | .branch cond, [x, y, .target _] => cond.holds (word x) (word y)
  | .branch cond, [x, .target _] => cond.holds (word x) 0
  | .branchBit wanted, [x, n, .target _] => (x.value c).getLsbD (n.value c).toNat == wanted
  | .branchStep _, [x, y, .target _] => word x != word y
  | .loop, [x, .target _] => word x != 0
  | _, _ => false

/-- Offset of the program counter among the special function registers. -/
def pcOffset : BitVec 16 := 0xFE08

/-- Where control goes from a core, for each way an instruction can have edges. -/
inductive Follows (i : Instruction) (c : Core) : List Edge → Address → Prop
  | fall (h : ¬ (i.row.action = .writeCsfr ∧ .csfr pcOffset ∈ i.operands)) :
    Follows i c [] i.next
  /-- The program counter is written as a special function register. -/
  | write (r : Register) (ha : i.row.action = .writeCsfr)
    (ho : i.operands = [.csfr pcOffset, .reg r]) : Follows i c [] ((c.read r).setWidth 32)
  | jump (t : Address) : Follows i c [.unconditional t] t
  | call (t : Address) : Follows i c [.call t] t
  | branch (t : Address) :
    Follows i c [.taken t, .notTaken i.next] (if i.condition c then t else i.next)
  | jumpThrough (r : Register) : Follows i c [.indirect r] (c.destination r)
  | callThrough (r : Register) : Follows i c [.indirectCall r] (c.destination r)
  | ret : Follows i c [.ret] (c.destination .link)
  /-- A trap on a flag that is clear. -/
  | untaken (f : Flag) (ha : i.row.action = .trapOn f) : Follows i c [.unresolved] i.next

theorem Follows.unique {i : Instruction} {c : Core} {es : List Edge} {a b : Address}
    (ha : Follows i c es a) (hb : Follows i c es b) : a = b := by
  cases ha with
  | fall h =>
    cases hb with
    | fall => rfl
    | write r hw ho => exact absurd ⟨hw, by simp [ho]⟩ h
  | write r hw ho =>
    cases hb with
    | fall h => exact absurd ⟨hw, by simp [ho]⟩ h
    | write r' _ ho' =>
      obtain rfl : r = r' := by simpa using ho.symm.trans ho'
      rfl
  | _ =>
    cases hb
    rfl

end Instruction

/-! ## Instructions that leave -/

theorem Opcode.leaving_rows : ∀ g ∈ table, ∀ r ∈ g.rows, r.action.leaves = true →
    r.shapes = r.operands.map (·.shape) := by decide +kernel

theorem Action.flow_of_stays {a : Action} (h : a.leaves = false) :
    a ≠ .writeCsfr ∧ (a.flow = .fallThrough ∨ ∃ f, a = .trapOn f) := by
  refine ⟨?_, ?_⟩
  · rintro rfl
    cases h
  cases a with
  | trapOn f => exact .inr ⟨f, rfl⟩
  | jump | loopForever | branch | branchBit | branchStep | loop | call | fastCall | jumpLink
  | jumpIndirect | callIndirect | fastCallIndirect | jumpLinkIndirect | ret | fastRet
  | retException | retMonitor | writeCsfr => cases h
  | _ => exact .inl rfl

theorem Action.leaves_of_pc_mem {a : Action} {os : List Operand} (h : .pc ∈ a.special os) :
    a.leaves = true := by
  cases a with
  | context i | platform i =>
    have himplied : .pc ∉ i.implied := by cases i <;> decide
    exact absurd (List.mem_of_mem_filter h) himplied
  | jump | loopForever | branch | branchBit | branchStep | loop | call | fastCall | jumpLink
  | jumpIndirect | callIndirect | fastCallIndirect | jumpLinkIndirect | ret | fastRet
  | retException | retMonitor | writeCsfr => rfl
  | _ => cases h

namespace Role

variable {a b c : Role} {os : List Operand}

theorem one_of_fit (h : fit [a] (os.map (·.shape)) = true) :
    ∃ x, os = [x] ∧ a.takes x.shape = true := by
  match os with
  | [x] => exact ⟨x, rfl, by simpa [fit] using h⟩
  | [] | _ :: _ :: _ => simp [fit] at h

theorem two_of_fit (h : fit [a, b] (os.map (·.shape)) = true) :
    ∃ x y, os = [x, y] ∧ a.takes x.shape = true ∧ b.takes y.shape = true := by
  match os with
  | [x, y] => exact ⟨x, y, rfl, by simpa [fit] using h⟩
  | [] | [_] | _ :: _ :: _ :: _ => simp [fit] at h

theorem three_of_fit (h : fit [a, b, c] (os.map (·.shape)) = true) :
    ∃ x y z, os = [x, y, z] ∧ a.takes x.shape = true ∧ b.takes y.shape = true ∧
      c.takes z.shape = true := by
  match os with
  | [x, y, z] => exact ⟨x, y, z, rfl, by simpa [fit] using h⟩
  | [] | [_] | [_, _] | _ :: _ :: _ :: _ :: _ => simp [fit] at h

end Role

namespace Instruction

variable {isa : Isa} {bytes : List Byte} {addr : Address} {i : Instruction}

/-- An instruction that may leave has no selectors among its operands. -/
theorem operands_of_leaves (h : decode isa bytes addr = .ok i) (hl : i.row.action.leaves = true) :
    (Lift.Source.of i).operands = i.operands ∧
      Role.fit (i.row.action.signature i.operands.length) (i.operands.map (·.shape)) = true := by
  obtain ⟨hfits, hshapes⟩ := fits h
  obtain ⟨e, -, -, -, g, hg, hr, hos⟩ := of_decode h
  have hmap : (i.operands.map (·.shape)).filter (· ≠ .selector) = i.operands.map (·.shape) := by
    rw [← shapes_of, hshapes, Opcode.leaving_rows g hg _ hr hl, (shapes_of_mapM hos).1]
  have heq : (Lift.Source.of i).operands = i.operands := operands_of_unselected fun o ho =>
    of_decide_eq_true (List.filter_eq_self.1 hmap o.shape (List.mem_map_of_mem ho))
  refine ⟨heq, ?_⟩
  have := hfits.roles
  rwa [Lift.Source.shapes, Lift.Source.arity, heq] at this

/-- A single operand, a target. -/
theorem target_of_leaves (h : decode isa bytes addr = .ok i) (hl : i.row.action.leaves = true)
    (hsig : i.row.action.signature i.operands.length = [.target]) :
    ∃ t, (Lift.Source.of i).target 0 = .ok t ∧ i.target? = some t := by
  obtain ⟨hops, hfit⟩ := operands_of_leaves h hl
  rw [hsig] at hfit
  obtain ⟨o, ho, ht⟩ := Role.one_of_fit hfit
  obtain ⟨t, rfl⟩ := Role.takes_target.1 ht
  rw [ho] at hops
  exact ⟨t, Lift.Source.target_of 0 hops rfl, by simp [target?, ho]⟩

/-- A single operand, a register. -/
theorem register_of_leaves (h : decode isa bytes addr = .ok i) (hl : i.row.action.leaves = true)
    (hsig : i.row.action.signature i.operands.length = [.register]) :
    ∃ r, r.Ordinary ∧ (Lift.Source.of i).reg 0 = .ok r ∧ i.firstRegister? = some r := by
  obtain ⟨hops, hfit⟩ := operands_of_leaves h hl
  rw [hsig] at hfit
  obtain ⟨o, ho, ht⟩ := Role.one_of_fit hfit
  obtain ⟨r, rfl, hr⟩ := Role.takes_register.1 ht
  rw [ho] at hops
  exact ⟨r, hr, Lift.Source.reg_of 0 hops rfl, by simp [firstRegister?, ho]⟩

theorem offset_of_pc_mem {offset : BitVec 16}
    (h : .pc ∈ (Register.canonical (.csfr offset)).cells) : offset = pcOffset := by
  have hcanonical : Register.canonical (.csfr offset) = .pc := by
    unfold Register.cells at h
    rw [Register.canonical_canonical] at h
    generalize Register.canonical (.csfr offset) = r at h
    cases r <;> simp_all
  exact Register.offset_of_canonical hcanonical rfl

/-- The target comes last, after values. -/
theorem target?_eq (xs : List Operand) {t : Address} (ho : i.operands = xs ++ [.target t])
    (hx : ∀ x ∈ xs, Role.value.takes x.shape = true) : i.target? = some t := by
  rw [target?, ho, List.findSome?_append, List.findSome?_eq_none_iff.2]
  · rfl
  · intro x hmem
    have := hx x hmem
    cases x with
    | target => cases this
    | _ => rfl

theorem follows_of_condition {c : Core} {pc t : Address} (hflow : i.row.action.flow = .conditional)
    (htarget : i.target? = some t) (hpc : pc = if i.condition c then t else i.next) :
    Follows i c i.edges pc := by
  have hedges : i.edges = [.taken t, .notTaken i.next] := by
    rw [edges, hflow, htarget]
  rw [hedges, hpc]
  exact .branch t

end Instruction

namespace Lift

/-- What a call or a return does before control moves: nothing that branches or writes the first
temporary. -/
def Links (link : Address → Emit Unit) : Prop :=
  ∀ next supply, ∀ stmt ∈ (link next supply).2.1, stmt.straight = true ∧ .temp 0 ∉ stmt.written

theorem links_linkOnly : Links Plan.linkOnly := by
  intro next supply stmt hs
  rw [List.mem_singleton.1 hs]
  exact ⟨rfl, show .temp 0 ∉ [Register.a 11] by decide⟩

theorem links_saveAndLink : Links saveAndLink := by
  intro next supply stmt hs
  rcases List.mem_cons.1 hs with rfl | hs
  · exact ⟨rfl, by decide⟩
  · exact links_linkOnly next supply stmt hs

theorem links_pushLink : Links pushLink := by
  intro next supply stmt hs
  rcases List.mem_cons.1 hs with rfl | hs
  · exact ⟨rfl, by decide⟩
  rcases List.mem_cons.1 hs with rfl | hs
  · exact ⟨rfl, by decide⟩
  · exact links_linkOnly next supply stmt hs

theorem links_restoreUpper :
    Links fun _ => intrinsic .restoreUpperContext upperRegisters [] := by
  intro next supply stmt hs
  rw [List.mem_singleton.1 hs]
  exact ⟨rfl, by decide⟩

theorem links_popLink : Links (fun _ => do
    set .link (.load .word (.reg .stackPointer))
    set .stackPointer (.add .word (.reg .stackPointer) (.const .word 4))) := by
  intro next supply stmt hs
  rcases List.mem_cons.1 hs with rfl | hs
  · exact ⟨rfl, by decide⟩
  · rw [List.mem_singleton.1 hs]
    exact ⟨rfl, by decide⟩

end Lift

namespace Instruction

theorem plan_branchStep {i : Instruction} {step : Word} {r : Register} {y : Operand}
    {t : Address} (ha : i.row.action = .branchStep step)
    (hops : (Lift.Source.of i).operands = [.reg r, y, .target t])
    (hy : Role.value.takes y.shape = true) :
    i.plan = Lift.emitting (do
      let differ ← Lift.temp (.compare .ne .word (.reg r) y.expr)
      Lift.set r (.add .word (.reg r) (.word step))
      Lift.branchTo (Lift.isSet differ) t i.next) := by
  have hplan : i.plan = Lift.Plan.branchStep step (.of i) := by rw [plan, ha]; rfl
  rw [hplan, Lift.Plan.branchStep, Lift.Source.reg_of 0 hops rfl,
    Lift.Source.value_of 1 hops rfl hy, Lift.Source.target_of 2 hops rfl]
  rfl

theorem plan_loop {i : Instruction} {r : Register} {t : Address} (ha : i.row.action = .loop)
    (hops : (Lift.Source.of i).operands = [.reg r, .target t]) :
    i.plan = Lift.emitting (do
      let again ← Lift.temp (.compare .ne .word (.reg r) (.const .word 0))
      Lift.set r (.sub .word (.reg r) (.const .word 1))
      Lift.branchTo (Lift.isSet again) t i.next) := by
  have hplan : i.plan = Lift.Plan.loop (.of i) := by rw [plan, ha]; rfl
  rw [hplan, Lift.Plan.loop, Lift.Source.reg_of 0 hops rfl, Lift.Source.target_of 1 hops rfl]
  rfl

variable {isa : Isa} {bytes : List Byte} {i : Instruction} {β : Type} [Bus β] {m : Machine β}
  (hf : Machine.fetch m.bus m.core.pc = .ok bytes) (hd : decode isa bytes m.core.pc = .ok i)
  (hdone : (m.step isa).2 = .done)
include hf hd hdone

open Lift (code)

theorem follows_jump (hl : i.row.action.leaves = true)
    (hsig : i.row.action.signature i.operands.length = [.target])
    (hflow : i.row.action.flow = .unconditional) (hplan : i.plan = Lift.Plan.jump (.of i)) :
    Follows i m.core i.edges (m.step isa).1.core.pc := by
  obtain ⟨t, ht, htarget⟩ := target_of_leaves hd hl hsig
  have hp : i.plan = Lift.emitting (Lift.jumpTo t) := by
    rw [hplan, Lift.Plan.jump, ht]
    rfl
  have hpc : (m.step isa).1.core.pc = t :=
    Machine.pc_step_last hf hd hp hdone
      (show code (Lift.jumpTo t) = [] ++ [.jump (.word t)] from rfl) (by simp) fun m' => by
        simp only [Stmt.exec, Expr.eval_word]
  have hedges : i.edges = [.unconditional t] := by
    rw [edges, hflow, htarget]
  rw [hedges, hpc]
  exact .jump t

theorem follows_call (hl : i.row.action.leaves = true)
    (hsig : i.row.action.signature i.operands.length = [.target])
    (hflow : i.row.action.flow = .call) {link : Address → Lift.Emit Unit} (hlink : Lift.Links link)
    (hplan : i.plan = Lift.Plan.callDirect link (.of i)) :
    Follows i m.core i.edges (m.step isa).1.core.pc := by
  obtain ⟨t, ht, htarget⟩ := target_of_leaves hd hl hsig
  have hp : i.plan = Lift.emitting (do link i.next; Lift.emit (.call (.word t))) := by
    rw [hplan, Lift.Plan.callDirect, ht]
    rfl
  have hpc : (m.step isa).1.core.pc = t :=
    Machine.pc_step_last hf hd hp hdone
      (show _ = code (link i.next) ++ [.call (.word t)] from rfl)
      (fun stmt hs => (hlink _ _ stmt hs).1) fun m' => by simp only [Stmt.exec, Expr.eval_word]
  have hedges : i.edges = [.call t] := by
    rw [edges, hflow, htarget]
  rw [hedges, hpc]
  exact .call t

theorem follows_jumpThrough (hl : i.row.action.leaves = true)
    (hsig : i.row.action.signature i.operands.length = [.register])
    (hflow : i.row.action.flow = .indirect) (hplan : i.plan = Lift.Plan.jumpIndirect (.of i)) :
    Follows i m.core i.edges (m.step isa).1.core.pc := by
  obtain ⟨r, hr, hreg, hfirst⟩ := register_of_leaves hd hl hsig
  have hp : i.plan = Lift.emitting (do Lift.emit (.jump (← Lift.temp (.aligned r)))) := by
    rw [hplan, Lift.Plan.jumpIndirect, hreg]
    rfl
  have hpc : (m.step isa).1.core.pc = m.core.destination r :=
    Machine.pc_step_through hf hd hp hdone hr
      (show _ = Stmt.setReg (.temp 0) (.aligned r) :: ([] ++ [.jump (.reg (.temp 0))]) from rfl)
      (by simp) (by simp) fun _ => rfl
  have hedges : i.edges = [.indirect r] := by
    rw [edges, hflow, hfirst]
    rfl
  rw [hedges, hpc]
  exact .jumpThrough r

theorem follows_callThrough (hl : i.row.action.leaves = true)
    (hsig : i.row.action.signature i.operands.length = [.register])
    (hflow : i.row.action.flow = .indirectCall) {link : Address → Lift.Emit Unit}
    (hlink : Lift.Links link) (hplan : i.plan = Lift.Plan.callThrough link (.of i)) :
    Follows i m.core i.edges (m.step isa).1.core.pc := by
  obtain ⟨r, hr, hreg, hfirst⟩ := register_of_leaves hd hl hsig
  have hp : i.plan = Lift.emitting (do
      let dest ← Lift.temp (.aligned r); link i.next; Lift.emit (.call dest)) := by
    rw [hplan, Lift.Plan.callThrough, hreg]
    rfl
  -- One temporary is in use when the link is made.
  let linked := (link i.next { temps := 1, labels := 0, labelAt? := fun _ => none }).2.1
  have hpc : (m.step isa).1.core.pc = m.core.destination r :=
    Machine.pc_step_through hf hd hp hdone hr
      (show _ = .setReg (.temp 0) (.aligned r) :: (linked ++ [.call (.reg (.temp 0))]) from rfl)
      (fun stmt hs => (hlink _ _ stmt hs).1) (fun stmt hs => (hlink _ _ stmt hs).2) fun _ => rfl
  have hedges : i.edges = [.indirectCall r] := by
    rw [edges, hflow, hfirst]
    rfl
  rw [hedges, hpc]
  exact .callThrough r

theorem pc_of_ret {restore : Lift.Emit Unit} (hrestore : Lift.Links fun _ => restore)
    (hp : i.plan = Lift.emitting (do
      let dest ← Lift.temp (.aligned .link); restore; Lift.emit (.ret dest))) :
    (m.step isa).1.core.pc = m.core.destination .link := by
  let restored := (restore { temps := 1, labels := 0, labelAt? := fun _ => none }).2.1
  exact Machine.pc_step_through hf hd hp hdone nofun
    (show _ = .setReg (.temp 0) (.aligned .link) :: (restored ++ [.ret (.reg (.temp 0))]) from rfl)
    (fun stmt hs => (hrestore 0 _ stmt hs).1) (fun stmt hs => (hrestore 0 _ stmt hs).2) fun _ => rfl

theorem follows_ret (hflow : i.row.action.flow = .ret) {restore : Lift.Emit Unit}
    (hrestore : Lift.Links fun _ => restore)
    (hp : i.plan = Lift.emitting (do
      let dest ← Lift.temp (.aligned .link); restore; Lift.emit (.ret dest))) :
    Follows i m.core i.edges (m.step isa).1.core.pc := by
  have hedges : i.edges = [.ret] := by
    rw [edges, hflow]
  rw [hedges, pc_of_ret hf hd hdone hrestore hp]
  exact .ret

/-- A return from a debug monitor does not complete. -/
theorem not_done_retMonitor (hplan : i.plan = Lift.Plan.retMonitor) : False := by
  have hp : i.plan = Lift.emitting (do
      let dest ← Lift.temp (.reg .link)
      Lift.intrinsic .restoreDebug [.pcxi, .psw, .stackPointer, .link] []
      Lift.emit (.ret dest)) := hplan
  rw [Machine.step_of_plan hf hd hp] at hdone
  cases hdone

theorem follows_branch {c : Condition} (ha : i.row.action = .branch c) :
    Follows i m.core i.edges (m.step isa).1.core.pc := by
  obtain ⟨hops, hfit⟩ := operands_of_leaves hd (ha ▸ rfl)
  have hplan : i.plan = Lift.Plan.branch c (.of i) := by rw [plan, ha]; rfl
  simp only [ha, Action.signature] at hfit
  split at hfit
  · obtain ⟨x, y, o, ho, hx, hy, ht⟩ := Role.three_of_fit hfit
    obtain ⟨t, rfl⟩ := Role.takes_target.1 ht
    rw [ho] at hops
    have hp : i.plan = Lift.emitting (Lift.branchTo (.compare c.op .word x.expr y.expr) t i.next) := by
      rw [hplan, Lift.Plan.branch, Lift.Source.value_of 0 hops rfl hx,
        Lift.Source.value_of 1 hops rfl hy, Lift.Source.arity, hops]
      rw [show [x, y, .target t].length - 1 = 2 from rfl, Lift.Source.target_of 2 hops rfl]
      rfl
    refine follows_of_condition (ha ▸ rfl) (target?_eq [x, y] ho (by simp [hx, hy])) ?_
    have hcond : i.condition m.core =
        c.holds ((x.value m.core).setWidth 32) ((y.value m.core).setWidth 32) := by
      simp only [condition, ha, ho]
    rw [hcond]
    exact Machine.pc_step_branch hf hd hp hdone rfl
      (Expr.eval_condition c (Operand.eval_expr m i hx) (Operand.eval_expr m i hy))
  · obtain ⟨x, o, ho, hx, ht⟩ := Role.two_of_fit hfit
    obtain ⟨t, rfl⟩ := Role.takes_target.1 ht
    rw [ho] at hops
    have hp : i.plan =
        Lift.emitting (Lift.branchTo (.compare c.op .word x.expr (.const .word 0)) t i.next) := by
      rw [hplan, Lift.Plan.branch, Lift.Source.value_of 0 hops rfl hx, Lift.Source.arity, hops]
      rw [show [x, .target t].length - 1 = 1 from rfl, Lift.Source.target_of 1 hops rfl]
      rfl
    refine follows_of_condition (ha ▸ rfl) (target?_eq [x] ho (by simp [hx])) ?_
    have hcond : i.condition m.core = c.holds ((x.value m.core).setWidth 32) 0 := by
      simp only [condition, ha, ho]
    have hzero : (Expr.const .word 0).eval (m.start i) = .ok 0 := rfl
    rw [hcond]
    exact Machine.pc_step_branch hf hd hp hdone rfl
      (Expr.eval_condition c (Operand.eval_expr m i hx) hzero)

theorem follows_branchBit {wanted : Bool} (ha : i.row.action = .branchBit wanted) :
    Follows i m.core i.edges (m.step isa).1.core.pc := by
  obtain ⟨hops, hfit⟩ := operands_of_leaves hd (ha ▸ rfl)
  have hplan : i.plan = Lift.Plan.branchBit wanted (.of i) := by rw [plan, ha]; rfl
  simp only [ha, Action.signature] at hfit
  obtain ⟨x, o, o', ho, hx, hn, ht⟩ := Role.three_of_fit hfit
  obtain ⟨n, rfl⟩ := Role.takes_immediate.1 hn
  obtain ⟨t, rfl⟩ := Role.takes_target.1 ht
  rw [ho] at hops
  have hp : i.plan = Lift.emitting (Lift.branchTo (.compare .eq .byte
      (x.expr.bit (BitVec.ofInt 32 n).toNat) (.const .byte (if wanted then 1 else 0))) t i.next) := by
    rw [hplan, Lift.Plan.branchBit, Lift.Source.value_of 0 hops rfl hx,
      Lift.Source.count_of 1 hops rfl, Lift.Source.target_of 2 hops rfl]
    rfl
  refine follows_of_condition (ha ▸ rfl) (target?_eq [x, .imm n] ho (by simp [hx]; rfl)) ?_
  have hcond : i.condition m.core =
      ((x.value m.core).getLsbD (BitVec.ofInt 32 n).toNat == wanted) := by
    simp only [condition, ha, ho, Operand.value]
    rw [BitVec.toNat_setWidth, Nat.mod_eq_of_lt]
    exact Nat.lt_of_lt_of_le (BitVec.isLt _) (by decide)
  obtain ⟨hcut, hwidth⟩ := Operand.cut_value m.core hx
  have hbit := Expr.eval_bit (Operand.eval_expr m i hx) hcut hwidth (BitVec.ofInt 32 n).isLt
  rw [hcond]
  refine Machine.pc_step_branch hf hd hp hdone rfl ((Expr.eval_compare hbit rfl).trans ?_)
  cases wanted <;> cases (x.value m.core).getLsbD (BitVec.ofInt 32 n).toNat <;> rfl

theorem follows_branchStep {step : Word} (ha : i.row.action = .branchStep step) :
    Follows i m.core i.edges (m.step isa).1.core.pc := by
  obtain ⟨hops, hfit⟩ := operands_of_leaves hd (ha ▸ rfl)
  simp only [ha, Action.signature] at hfit
  obtain ⟨x, y, o, ho, hx, hy, ht⟩ := Role.three_of_fit hfit
  have hxv := Operand.takes_value hx
  obtain ⟨r, rfl, hr⟩ := Role.takes_register.1 hx
  obtain ⟨t, rfl⟩ := Role.takes_target.1 ht
  rw [ho] at hops
  have hp := plan_branchStep ha hops hy
  refine follows_of_condition (ha ▸ rfl) (target?_eq [.reg r, y] ho (by simp [hxv, hy])) ?_
  have hcond : i.condition m.core = Condition.ne.holds ((m.core.read r).setWidth 32)
      ((y.value m.core).setWidth 32) := by
    simp only [condition, ha, ho, Condition.holds, Operand.value]
  rw [hcond]
  exact Machine.pc_step_branch_kept hf hd hp hdone rfl hr
    (Expr.eval_condition .ne (Operand.eval_expr m i hxv) (Operand.eval_expr m i hy))

theorem follows_loop (ha : i.row.action = .loop) :
    Follows i m.core i.edges (m.step isa).1.core.pc := by
  obtain ⟨hops, hfit⟩ := operands_of_leaves hd (ha ▸ rfl)
  simp only [ha, Action.signature] at hfit
  obtain ⟨x, o, ho, hx, ht⟩ := Role.two_of_fit hfit
  have hxv := Operand.takes_value hx
  obtain ⟨r, rfl, hr⟩ := Role.takes_register.1 hx
  obtain ⟨t, rfl⟩ := Role.takes_target.1 ht
  rw [ho] at hops
  have hp := plan_loop ha hops
  refine follows_of_condition (ha ▸ rfl) (target?_eq [.reg r] ho (by simp [hxv])) ?_
  have hcond : i.condition m.core = Condition.ne.holds ((m.core.read r).setWidth 32) 0 := by
    simp only [condition, ha, ho, Condition.holds, Operand.value]
  have hzero : (Expr.const .word 0).eval (m.start i) = .ok 0 := rfl
  rw [hcond]
  exact Machine.pc_step_branch_kept hf hd hp hdone rfl hr
    (Expr.eval_condition .ne (Operand.eval_expr m i hxv) hzero)

omit hdone in
theorem follows_writeCsfr (ha : i.row.action = .writeCsfr) :
    Follows i m.core i.edges (m.step isa).1.core.pc := by
  obtain ⟨hops, hfit⟩ := operands_of_leaves hd (ha ▸ rfl)
  have hplan : i.plan = Lift.Plan.writeCsfr (.of i) := by rw [plan, ha]; rfl
  simp only [ha, Action.signature] at hfit
  obtain ⟨o, x, ho, hoff, hx⟩ := Role.two_of_fit hfit
  have hxv := Operand.takes_value hx
  obtain ⟨r, rfl, hr⟩ := Role.takes_register.1 hx
  obtain ⟨offset, rfl⟩ := Role.takes_csfr.1 hoff
  rw [ho] at hops
  have hp : i.plan = Lift.emitting (Lift.intrinsic .mtcr [Register.canonical (.csfr offset)]
      [.const .half (offset.setWidth 64), .reg r]) := by
    rw [hplan, Lift.Plan.writeCsfr, Lift.Source.csfr_of 0 hops rfl,
      Lift.Source.value_of 1 hops rfl hxv]
    rfl
  have hedges : i.edges = [] := by
    rw [edges, ha]
    rfl
  have hstep : (m.step isa).1 = (m.start i).withCore
      (·.write (Register.canonical (.csfr offset)) ((m.start i).core.read r)) := by
    rw [Machine.step_of_plan hf hd hp]
    rfl
  rw [hedges, hstep]
  by_cases hoffset : offset = pcOffset
  · subst hoffset
    have hpc : ((m.start i).core.write (Register.canonical (.csfr pcOffset))
        ((m.start i).core.read r)).pc = (m.core.read r).setWidth 32 := by
      rw [hr.read_start]
      rfl
    exact hpc ▸ .write r ha ho
  · have hcell : .pc ∉ (Register.canonical (.csfr offset)).cells := fun hmem =>
      hoffset (offset_of_pc_mem hmem)
    have hpc : ((m.start i).core.write (Register.canonical (.csfr offset))
        ((m.start i).core.read r)).pc = i.next :=
      Core.pc_eq_of_read (Core.read_write trivial hcell)
    refine hpc ▸ .fall fun hw => ?_
    simp [ho, eq_comm, hoffset] at hw

omit hdone in
/-- Most instructions leave the program counter at the next one, where a step sets it first. -/
theorem follows_stay (hl : i.row.action.leaves = false) :
    Follows i m.core i.edges (m.step isa).1.core.pc := by
  obtain ⟨t, -, hstep, htame, -⟩ := Machine.step_of_decode hf hd
  have hkeep : (m.step isa).1.core.read .pc = (m.start i).core.read .pc := by
    rw [hstep]
    exact Machine.read_run trivial (by simp) fun stmt hs =>
      (htame stmt hs).pc_not_written fun hpc => by simp [Action.leaves_of_pc_mem hpc] at hl
  rw [Core.pc_eq_of_read hkeep]
  obtain ⟨hne, hflow | ⟨f, hf⟩⟩ := Action.flow_of_stays hl
  · have hedges : i.edges = [] := by rw [edges, hflow]
    exact hedges ▸ .fall fun h => hne h.1
  · have hedges : i.edges = [.unresolved] := by
      rw [edges, hf]
      rfl
    exact hedges ▸ .untaken f hf

theorem follows_step : Follows i m.core i.edges (m.step isa).1.core.pc := by
  cases ha : i.row.action with
  | jump | loopForever =>
    exact follows_jump hf hd hdone (ha ▸ rfl) (ha ▸ rfl) (ha ▸ rfl) (by rw [plan, ha]; rfl)
  | jumpIndirect =>
    exact follows_jumpThrough hf hd hdone (ha ▸ rfl) (ha ▸ rfl) (ha ▸ rfl) (by rw [plan, ha]; rfl)
  | jumpLink =>
    exact follows_call hf hd hdone (ha ▸ rfl) (ha ▸ rfl) (ha ▸ rfl) Lift.links_linkOnly
      (by rw [plan, ha]; rfl)
  | call =>
    exact follows_call hf hd hdone (ha ▸ rfl) (ha ▸ rfl) (ha ▸ rfl) Lift.links_saveAndLink
      (by rw [plan, ha]; rfl)
  | fastCall =>
    exact follows_call hf hd hdone (ha ▸ rfl) (ha ▸ rfl) (ha ▸ rfl) Lift.links_pushLink
      (by rw [plan, ha]; rfl)
  | jumpLinkIndirect =>
    exact follows_callThrough hf hd hdone (ha ▸ rfl) (ha ▸ rfl) (ha ▸ rfl) Lift.links_linkOnly
      (by rw [plan, ha]; rfl)
  | callIndirect =>
    exact follows_callThrough hf hd hdone (ha ▸ rfl) (ha ▸ rfl) (ha ▸ rfl) Lift.links_saveAndLink
      (by rw [plan, ha]; rfl)
  | fastCallIndirect =>
    exact follows_callThrough hf hd hdone (ha ▸ rfl) (ha ▸ rfl) (ha ▸ rfl) Lift.links_pushLink
      (by rw [plan, ha]; rfl)
  | ret | retException =>
    exact follows_ret hf hd hdone (ha ▸ rfl) Lift.links_restoreUpper (by rw [plan, ha]; rfl)
  | fastRet =>
    exact follows_ret hf hd hdone (ha ▸ rfl) Lift.links_popLink (by rw [plan, ha]; rfl)
  | retMonitor => exact (not_done_retMonitor hf hd hdone (by rw [plan, ha]; rfl)).elim
  | branch c => exact follows_branch hf hd hdone ha
  | branchBit wanted => exact follows_branchBit hf hd hdone ha
  | branchStep step => exact follows_branchStep hf hd hdone ha
  | loop => exact follows_loop hf hd hdone ha
  | writeCsfr => exact follows_writeCsfr hf hd ha
  | _ => exact follows_stay hf hd (ha ▸ rfl)

end Instruction

/-- A step that completes goes where the edges of its instruction lead from the core before it, and
they lead nowhere else. -/
theorem step_follows_edges {β : Type} [Bus β] (isa : Isa) (m : Machine β)
    (hdone : (m.step isa).2 = .done) :
    ∃ bytes i, Machine.fetch m.bus m.core.pc = .ok bytes ∧
      Instruction.decode isa bytes m.core.pc = .ok i ∧
      ∀ a, i.Follows m.core i.edges a ↔ a = (m.step isa).1.core.pc := by
  obtain ⟨bytes, i, hf, hd⟩ := Machine.decoded_of_done hdone
  refine ⟨bytes, i, hf, hd, fun a => ⟨fun h => ?_, ?_⟩⟩
  · exact h.unique (Instruction.follows_step hf hd hdone)
  · rintro rfl
    exact Instruction.follows_step hf hd hdone

/-- A call through the link register, which it also sets: `calli a11` to address `0x100`. -/
def callThroughLink : Machine Window where
  core := { a := .replicate 16 0x101 }
  bus := { base := 0, size := 4, bytes := .putAll .empty 0 [0x2D, 0x0B, 0x00, 0x00] }

theorem step_follows_edges_calli :
    (callThroughLink.step .v16).2 = .done ∧ (callThroughLink.step .v16).1.core.read .link = 4 ∧
      (callThroughLink.step .v16).1.core.pc = 0x100 := by
  have hdone : (callThroughLink.step .v16).2 = .done := by decide +kernel
  obtain ⟨bytes, i, hf, hd, h⟩ := step_follows_edges .v16 callThroughLink hdone
  have hbytes : Machine.fetch callThroughLink.bus callThroughLink.core.pc =
      .ok [0x2D, 0x0B, 0x00, 0x00] := by decide +kernel
  obtain rfl : [0x2D, 0x0B, 0x00, 0x00] = bytes := Except.ok.inj (hbytes.symm.trans hf)
  have hedges : i.edges = [.indirectCall .link] := by
    cases hd
    rfl
  have hpc := (h (callThroughLink.core.destination .link)).1 (hedges ▸ .callThrough .link)
  exact ⟨hdone, by decide +kernel, hpc.symm.trans (by decide +kernel)⟩

end Tricore
