import Mathlib
import Tricore.Proofs.CheckedArithmetic
import Tricore.Proofs.Labelling
import Tricore.Proofs.Precision

/-!
# Read-modify-write

An instruction that exchanges reads a word of memory and writes another one in its place, which may
depend on the first; the word that was there goes to a register, or is dropped. It completes exactly
if the window admits a word at the address (`Instruction.step_exchange`), and then it leaves what
`Machine.Exchanges` says, in any addressing mode: it writes data registers only, so that it cannot
disturb the update.

An instruction that compares first has the only code here with labels. Where the comparison fails it
leaves memory alone, which is to write the word that is there.
-/

namespace Tricore

/-- The bits of `value` where the mask has them, and those of `old` elsewhere. -/
def merged (old value mask : Word) : Word := (old &&& ~~~mask) ||| (value &&& mask)

/-- The value, if the word is the one that is expected. -/
def compared (old value expected : Word) : Word := if old = expected then value else old

/-- What is written over a word in memory, and the cells that get the word. Of a pair, the low
register is the value. -/
def Action.exchange? (c : Core) : Action → Register → Option ((Word → Word) × List Register)
  | .swap, .d k => some (fun _ => Operand.word c (.reg (.d k)), (Register.d k).cells)
  | .loadModifyStore, .e k =>
    some (fun old => merged old (Operand.word c (.reg (.d k))) (Operand.word c (.reg (.d (k + 1)))),
      [])
  | .swapMasked, .e k =>
    some (fun old => merged old (Operand.word c (.reg (.d k))) (Operand.word c (.reg (.d (k + 1)))),
      (Register.d k).cells)
  | .compareSwap, .e k =>
    some (fun old => compared old (Operand.word c (.reg (.d k)))
      (Operand.word c (.reg (.d (k + 1)))), (Register.d k).cells)
  | _, _ => none

namespace Machine

def wordAt (m : Machine Window) (addr : Address) : Word := .ofNat 32 (m.bus.number addr 4)

/-- What an exchange leaves. -/
structure Exchanges (m : Machine Window) (p : Place) (new : Word → Word) (written : List Register)
    (m' : Machine Window) : Prop where
  memory : m.bus.Receives (p.address m.core) 4
    ((new (m.wordAt (p.address m.core))).setWidth 64) m'.bus
  value : ∀ x ∈ written, m'.core.read x = (m.wordAt (p.address m.core)).setWidth 64
  registers : m.Moves p written m'

end Machine

/-! ## Registers -/

theorem Place.Decoded.not_mem_late {p : Place} (hp : p.Decoded) (k : Nat) :
    Register.d k ∉ p.late := by
  intro hx
  cases p with
  | bitReverse => obtain ⟨n, rfl⟩ := hp; cases List.mem_singleton.1 hx
  | _ => cases hx

theorem Place.Decoded.not_mem_touched {p : Place} (hp : p.Decoded) (c : Core) (k : Nat) :
    Register.d k ∉ p.touched c := by
  intro hx
  unfold Place.touched at hx
  cases hu : p.update? c with
  | none => rw [hu] at hx; cases hx
  | some u =>
    obtain ⟨n, hr⟩ := hp.exists_address (r := u.1) (w := u.2) hu
    rw [hu] at hx
    rw [Option.elim, hr] at hx
    cases List.mem_singleton.1 hx

/-- Data registers are written, and then the update is made. -/
theorem Machine.exchanges_updated {m m₁ m₂ : Machine Window} {p : Place} {n n₁ : Nat}
    {new : Word → Word} {written : List Register} (hp : p.Decoded) (hm : m.Extends n m₁ n₁)
    (hmemory : m.bus.Receives (p.address m.core) 4
      ((new (m.wordAt (p.address m.core))).setWidth 64) m₂.bus)
    (hwritten : ∀ x ∈ written, ∃ k < 16, x = .d k)
    (hvalue : ∀ x ∈ written, m₂.core.read x = (m.wordAt (p.address m.core)).setWidth 64)
    (hothers : ∀ x : Register, x.IsCell → x ∉ written → m₂.core.read x = m₁.core.read x) :
    m.Exchanges p new written (m₂.updated (p.updateAfter? m.core m₂.core)) := by
  have hlate : p.updateAfter? m.core m₂.core = p.update? m.core := by
    refine hm.updateAfter?_eq hp fun x hx => hothers x (hp.persistent_late hx).1 fun hmem => ?_
    obtain ⟨k, -, rfl⟩ := hwritten x hmem
    exact hp.not_mem_late k hx
  rw [hlate]
  refine ⟨?_, fun x hx => ?_, moves_updated hp hm hothers⟩
  · rwa [bus_updated]
  · obtain ⟨k, hk, rfl⟩ := hwritten x hx
    have hcell : (Register.d k).IsCell := hk
    exact (read_updated hcell (hp.not_mem_touched m.core k)).trans (hvalue _ hx)

/-! ## Emissions -/

namespace Lift

variable {pc : Address} {s : Supply} {m : Machine Window} {p : Place}

theorem yields_data (m : Machine Window) (k n : Nat) :
    (Expr.reg (.d k)).Yields m n (Operand.word m.core (.reg (.d k))) := by
  refine .reg trivial rfl ?_
  simp [Operand.word, Operand.value, Core.read, Register.canonical]

/-- The address and the word that is there are kept before anything is written. -/
def kept (p : Place) : Emit (Addressed × Expr × Expr) := do
  let a ← access p
  let addr ← temp a.addr
  let old ← temp (.load .word addr)
  return (a, addr, old)

structure Kept (pc : Address) (m : Machine Window) (t : Nat) (p : Place)
    (x : Addressed × Expr × Expr) (n : Nat) (m' : Machine Window) : Prop where
  since : m.Extends t m' n
  addr : x.2.1.Keeps m' n (p.address m.core)
  old : x.2.2.Keeps m' n (m.wordAt (p.address m.core))
  updates : ∀ m₁, m'.SameTemps n m₁ →
    Machine.Executes pc x.1.updates m₁ (m₁.updated (p.updateAfter? m.core m₁.core))

theorem labelless_kept (p : Place) : (kept p).Labelless :=
  .bind (.access p) fun _ => .temp_bind fun _ => .temp_bind fun _ => .pure _

theorem runs_kept (hp : p.Decoded) (h : m.bus.Admits (p.address m.core) .word)
    {Q : Addressed × Expr × Expr → Supply → Machine Window → Prop}
    (hQ : ∀ x s' m', Kept pc m s.temps p x s'.temps m' → Q x s' m') : (kept p).Runs pc s m Q := by
  refine .bind (runs_access hp fun a s' m₁ ha => ?_)
  refine .bind (.temp_keeps ha.addr (by decide) fun m₂ addr hm₂ haddr => ?_)
  have hbus : m₂.bus = m.bus := hm₂.grows.bus.trans ha.since.grows.bus
  have hload := Access.yields_load haddr.yields rfl (by rwa [hbus])
  rw [hbus] at hload
  refine .bind (.temp_keeps hload (by decide) fun m₃ old hm₃ hold => .pure (hQ _ _ _ ?_))
  refine ⟨ha.since.trans (hm₂.trans hm₃), haddr.along hm₃, hold, fun m₄ hm₄ => ha.updates m₄ ?_⟩
  exact .of_grows (hm₂.trans hm₃).grows (hm₂.trans hm₃).le hm₄

theorem traps_kept (hp : p.Decoded) (h : ¬ m.bus.Admits (p.address m.core) .word) :
    (kept p).Traps pc s m (Machine.refusal (p.address m.core) .word) := by
  refine Emit.Runs.bind_traps (runs_access hp fun a s' m₁ ha => ?_)
  refine Emit.Runs.bind_traps (.temp_keeps ha.addr (by decide) fun m₂ addr hm₂ haddr => ?_)
  have hbus : m₂.bus = m.bus := hm₂.grows.bus.trans ha.since.grows.bus
  have hload := Machine.eval_load_refused haddr.yields (by rwa [hbus])
  have hexec (k : Nat) : (Stmt.setReg (.temp k) (.load .word addr)).exec pc m₂ =
      (m₂, .trap (Machine.refusal (p.address m.core) .word)) := by
    simp only [Stmt.exec, hload]
  exact .bind (.here (hexec _))

/-- What has been kept goes to a data register, and the updates are made. -/
theorem Kept.exchanges {x : Addressed × Expr × Expr} {t n : Nat} {m₁ : Machine Window}
    {bus : Window} (hx : Kept pc m t p x n m₁) (hp : p.Decoded) (new : Word → Word) (k : Nat)
    (hmemory : m.bus.Receives (p.address m.core) 4
      ((new (m.wordAt (p.address m.core))).setWidth 64) bus) :
    ∃ m', Machine.Executes pc (.setReg (.d k) x.2.2 :: x.1.updates) { m₁ with bus } m' ∧
      m.Exchanges p new (Register.d k).cells m' := by
  have hold := (hx.old { m₁ with bus } fun _ _ => ⟨rfl, rfl⟩).eval _ (.refl _ _)
  have hexec : (Stmt.setReg (.d k) x.2.2).exec pc { m₁ with bus } =
      (Machine.withCore { m₁ with bus }
        (·.write (.d k) ((m.wordAt (p.address m.core)).setWidth 64)), .next) := by
    simp only [Stmt.exec, hold]
  have hordinary : (Register.d k).Ordinary := show Shape.data ≠ .special by decide
  have hsame : m₁.SameTemps n (Machine.withCore { m₁ with bus }
      (·.write (.d k) ((m.wordAt (p.address m.core)).setWidth 64))) :=
    Machine.sameTemps_write hordinary { m₁ with bus } n _
  refine ⟨_, .cons hexec (hx.updates _ hsame), Machine.exchanges_updated hp hx.since hmemory
    (fun x hx => ?_) (fun x hx => ?_) fun x hcell hnot => Core.read_write hcell hnot⟩
  · exact ⟨k % 16, Nat.mod_lt k (by decide), List.mem_singleton.1 hx⟩
  · rw [List.mem_singleton.1 hx]
    refine (Core.read_setD_self _ k _).trans ?_
    rw [BitVec.setWidth_setWidth_of_le (m.wordAt _) (by decide), BitVec.setWidth_eq]

theorem swapping_eq (p : Place) (r : Register) (new : Expr → Expr) :
    swapping p r new = kept p >>= fun x =>
      store .word x.2.1 (new x.2.2) >>= fun _ => emitAll (.setReg r x.2.2 :: x.1.updates) := by
  have htail (x : Addressed × Expr × Expr) :
      (set r x.2.2 >>= fun _ => emitAll x.1.updates) =
        emitAll (.setReg r x.2.2 :: x.1.updates) := rfl
  simp only [swapping, kept, bind_assoc, pure_bind, ← htail]

theorem runs_swapping {new : Expr → Expr} (hp : p.Decoded)
    (h : m.bus.Admits (p.address m.core) .word) (f : Word → Word)
    (hnew : ∀ m₁ n old, m.Extends s.temps m₁ n →
      old.Yields m₁ n (m.wordAt (p.address m.core)) →
        (new old).Yields m₁ n (f (m.wordAt (p.address m.core)))) (k : Nat) :
    (swapping p (.d k) new).Runs pc s m fun _ _ m' =>
      m.Exchanges p f (Register.d k).cells m' := by
  rw [swapping_eq]
  refine .bind (runs_kept hp h fun x s' m₁ hx => ?_)
  have hvalue := (hnew m₁ _ _ hx.since hx.old.yields).eval m₁ (.refl m₁ _)
  rw [← hx.since.grows.bus] at h
  obtain ⟨bus, hexec, hreceives⟩ := Machine.exec_store pc hx.addr.yields hvalue rfl h
  rw [hx.since.grows.bus] at hreceives
  exact .bind (.emit hexec (hx.exchanges hp f k hreceives))

theorem traps_swapping {new : Expr → Expr} (hp : p.Decoded)
    (h : ¬ m.bus.Admits (p.address m.core) .word) (r : Register) :
    (swapping p r new).Traps pc s m (Machine.refusal (p.address m.core) .word) := by
  rw [swapping_eq]
  exact .bind (traps_kept hp h)

/-- A word in memory is replaced, and what was there is dropped. -/
def modifying (p : Place) (new : Expr → Expr) : Emit Unit := do
  let a ← access p
  let addr ← temp a.addr
  store .word addr (new (.load .word addr))
  emitAll a.updates

theorem runs_modifying {new : Expr → Expr} (hp : p.Decoded)
    (h : m.bus.Admits (p.address m.core) .word) (f : Word → Word)
    (hnew : ∀ m₁ n old, m.Extends s.temps m₁ n →
      old.Yields m₁ n (m.wordAt (p.address m.core)) →
        (new old).Yields m₁ n (f (m.wordAt (p.address m.core)))) :
    (modifying p new).Runs pc s m fun _ _ m' => m.Exchanges p f [] m' := by
  refine .bind (runs_access hp fun a s' m₁ ha => ?_)
  refine .bind (.temp_keeps ha.addr (by decide) fun m₂ addr hm₂ haddr => ?_)
  have hsince := ha.since.trans hm₂
  rw [← hsince.grows.bus] at h
  have hload := Access.yields_load haddr.yields rfl h
  rw [hsince.grows.bus] at hload
  have hvalue := (hnew m₂ _ _ hsince hload).eval m₂ (.refl m₂ _)
  obtain ⟨bus, hexec, hreceives⟩ := Machine.exec_store pc haddr.yields hvalue rfl h
  rw [hsince.grows.bus] at hreceives
  have hsame : m₁.SameTemps s'.temps { m₂ with bus } :=
    .of_grows hm₂.grows hm₂.le fun _ _ => ⟨rfl, rfl⟩
  refine .bind (.emit hexec ⟨_, ha.updates _ hsame, ?_⟩)
  exact Machine.exchanges_updated hp hsince hreceives nofun nofun fun _ _ _ => rfl

theorem traps_modifying {new : Expr → Expr} (hp : p.Decoded)
    (h : ¬ m.bus.Admits (p.address m.core) .word)
    (hnew : ∀ (m₁ : Machine Window) old t, old.eval m₁ = .error t →
      (new old).eval m₁ = .error t) :
    (modifying p new).Traps pc s m (Machine.refusal (p.address m.core) .word) := by
  refine Emit.Runs.bind_traps (runs_access hp fun a s' m₁ ha => ?_)
  refine Emit.Runs.bind_traps (.temp_keeps ha.addr (by decide) fun m₂ addr hm₂ haddr => ?_)
  rw [← (ha.since.trans hm₂).grows.bus] at h
  have hload := hnew m₂ _ _ (Machine.eval_load_refused haddr.yields h)
  have hexec : (Stmt.store .word addr (new (.load .word addr))).exec pc m₂ =
      (m₂, .trap (Machine.refusal (p.address m.core) .word)) := by
    simp only [Stmt.exec, haddr.yields.eval m₂ (.refl m₂ _), hload]
  exact .bind (.emit hexec)

theorem yields_merged {m₁ : Machine Window} {t n : Nat} {old : Expr} {w : Word}
    (hm : m.Extends t m₁ n) (hold : old.Yields m₁ n w) (k : Nat) :
    (masked old (.reg (.d k)) (.reg (.d (k + 1)))).Yields m₁ n
      (merged w (Operand.word m.core (.reg (.d k))) (Operand.word m.core (.reg (.d (k + 1))))) := by
  have hword : Width.word.bits = 32 := rfl
  have hvalue := (yields_data m k t).along hm
  have hmask := (yields_data m (k + 1) t).along hm
  exact (hold.and (hmask.not hword) hword).or (hvalue.and hmask hword) hword

theorem eval_masked_error {m₁ : Machine Window} {old value mask : Expr} {t : Trap}
    (h : old.eval m₁ = .error t) : (masked old value mask).eval m₁ = .error t := by
  simp only [masked, Expr.or, Expr.and, Expr.eval, h, bind, Except.bind]

/-- Memory gets the value, or stays as it is, which is to write the word that is there. -/
theorem Kept.compares {x : Addressed × Expr × Expr} {t n : Nat} {m₁ : Machine Window}
    (hx : Kept pc m t p x n m₁) (hp : p.Decoded) (h : m.bus.Admits (p.address m.core) .word)
    (k : Nat) : ∃ v m₂ m₃,
      (Expr.compare .eq .word x.2.2 (.reg (.d (k + 1)))).eval m₁ = .ok v ∧
      (if v ≠ 0 then Machine.Executes pc [.store .word x.2.1 (.reg (.d k))] m₁ m₂ else m₂ = m₁) ∧
      Machine.Executes pc (.setReg (.d k) x.2.2 :: x.1.updates) m₂ m₃ ∧
      m.Exchanges p (fun old => compared old (Operand.word m.core (.reg (.d k)))
        (Operand.word m.core (.reg (.d (k + 1))))) (Register.d k).cells m₃ := by
  have hexpected := (yields_data m (k + 1) t).along hx.since
  have hvalue := ((yields_data m k t).along hx.since).eval m₁ (.refl m₁ _)
  have hword : Width.word.bits = 32 := rfl
  have hcond := (hx.old.yields.eq hexpected hword).eval m₁ (.refl m₁ _)
  have hbus : m₁.bus = m.bus := hx.since.grows.bus
  by_cases hhit : m.wordAt (p.address m.core) = Operand.word m.core (.reg (.d (k + 1)))
  · rw [decide_eq_true hhit] at hcond
    rw [← hbus] at h
    obtain ⟨bus, hexec, hreceives⟩ := Machine.exec_store pc hx.addr.yields hvalue rfl h
    rw [hbus] at hreceives
    obtain ⟨m₃, hrest, hexchanges⟩ := hx.exchanges hp (fun old => compared old _ _) k
      (by rw [compared, if_pos hhit]; exact hreceives)
    refine ⟨_, { m₁ with bus }, m₃, hcond, ?_, hrest, hexchanges⟩
    rw [if_pos (by decide)]
    exact .cons hexec (.nil _)
  · rw [decide_eq_false hhit] at hcond
    have hsame : m.bus.Receives (p.address m.core) 4
        ((m.wordAt (p.address m.core)).setWidth 64) m₁.bus := by
      rw [hbus, Machine.wordAt, Access.setWidth_ofNat (m.bus.number_lt _ 4) (by decide)]
      exact m.bus.receives_self _ (by decide)
    obtain ⟨m₃, hrest, hexchanges⟩ := hx.exchanges hp (fun old => compared old _ _) k
      (by rw [compared, if_neg hhit]; exact hsame)
    refine ⟨_, m₁, m₃, hcond, ?_, hrest, hexchanges⟩
    rw [if_neg (by decide)]

/-- A statement that is left out unless a condition holds. -/
def skipping (cond : Expr) (body : Stmt) (after : List Stmt) : Emit Unit := do
  let hit ← newLabel
  let miss ← newLabel
  emit (.branch cond hit miss)
  mark hit
  emit body
  mark miss
  emitAll after

end Lift

/-! ## Steps -/

namespace Machine

variable {isa : Isa} {m : Machine Window} {i : Instruction} {α : Type}

/-- A step of an instruction that may leave out a statement. -/
theorem step_of_skip {first : Lift.Emit α} {cond : α → Expr} {body : α → Stmt}
    {after : α → List Stmt} {Q : Machine Window → Prop} (hi : m.instruction? isa = some i)
    (hplan : i.plan = Lift.emitting
      (first >>= fun x => Lift.skipping (cond x) (body x) (after x)))
    (hfirst : first.Labelless) (hbody : ∀ x, (body x).usesLabel = false)
    (hafter : ∀ s, Unlabelled (after (first s).1))
    (h : ∀ s, first.Runs i.addr s (m.start i) fun x _ m₁ => ∃ v m₂ m₃,
      (cond x).eval m₁ = .ok v ∧
        (if v ≠ 0 then Executes i.addr [body x] m₁ m₂ else m₂ = m₁) ∧
          Executes i.addr (after x) m₂ m₃ ∧ Q m₃) :
    (m.step isa).2 = .done ∧ Q (m.step isa).1 := by
  obtain ⟨bytes, hf, hd⟩ := instruction?_eq_some.1 hi
  let s : Lift.Supply := { temps := 0, labels := 0, labelAt? := fun _ => none }
  obtain ⟨m₁, hrun, v, m₂, m₃, hcond, htaken, hrest, hQ⟩ := h s
  let l : Lift.Layout := .skip (first s).2.1 (cond (first s).1) [body (first s).1]
    (after (first s).1)
  have hsound : l.Sound := ⟨(hfirst s).stmts, by simpa [Unlabelled] using hbody _, hafter s⟩
  have hleads : Leads (fun _ => none) (fun _ => none) (first s).2.2.labels :=
    ⟨leads_none.bound, fun _ _ => rfl⟩
  have hmeaning : m.step isa = l.meaning i.next false i.addr (m.start i) := by
    rw [step_of_plan hf hd hplan, ← runIn_none]
    exact Lift.Layout.runIn_code hleads hsound i.next
  have hstep : m.step isa = (m₃, .done) := by
    rw [hmeaning]
    simp only [l, Lift.Layout.meaning, runAll, hrun.run, andThen, hcond]
    by_cases hv : v ≠ 0
    · rw [if_pos hv] at htaken ⊢
      simp only [htaken.run, hrest.run]
    · rw [if_neg hv] at htaken ⊢
      simp only [htaken ▸ hrest.run _]
  rw [hstep]
  exact ⟨rfl, hQ⟩

theorem Exchanges.of_start {m' : Machine Window} {p : Place} {new : Word → Word}
    {written : List Register} (hp : p.Decoded) (h : (m.start i).Exchanges p new written m') :
    m.Exchanges p new written m' := by
  have hmemory := h.memory
  have hvalue := h.value
  rw [(hp.start m i).1] at hmemory hvalue
  exact ⟨hmemory, hvalue, h.registers.of_start hp⟩

end Machine

theorem Lift.Source.pair_of {s : Source} {os : List Operand} (k : Nat) (h : s.operands = os)
    {r : Register} (hk : os[k]? = some (.reg r)) {halves : Register × Register}
    (hr : r.halves? = some halves) : s.pair k = .ok halves := by
  rw [pair, reg_of k h hk]
  simp only [bind, Except.bind, hr]

namespace Instruction

open Lift (masked kept skipping swapping modifying)

variable {isa : Isa} {m : Machine Window} {i : Instruction} {p : Place} {r : Register} {k : Nat}

section Plans

theorem plan_swap (ha : i.row.action = .swap) (hops : i.operands = [.place p, .reg r]) :
    i.plan = Lift.emitting (swapping p r fun _ => .reg r) := by
  have hsource := (operands_of_access (.inr hops)).trans hops
  rw [Instruction.plan, ha, Lift.plan, Lift.Plan.swap, Lift.Source.place_of 0 hsource rfl,
    Lift.Source.reg_of 1 hsource rfl]
  rfl

variable (hops : i.operands = [.place p, .reg (.e k)])
include hops

theorem plan_swapMasked (ha : i.row.action = .swapMasked) : i.plan = Lift.emitting
    (swapping p (.d k) fun old => masked old (.reg (.d k)) (.reg (.d (k + 1)))) := by
  have hsource := (operands_of_access (.inr hops)).trans hops
  rw [Instruction.plan, ha, Lift.plan, Lift.Plan.swapMasked, Lift.Source.place_of 0 hsource rfl,
    Lift.Source.pair_of 1 hsource rfl rfl]
  rfl

theorem plan_loadModifyStore (ha : i.row.action = .loadModifyStore) : i.plan = Lift.emitting
    (modifying p fun old => masked old (.reg (.d k)) (.reg (.d (k + 1)))) := by
  have hsource := (operands_of_access (.inr hops)).trans hops
  rw [Instruction.plan, ha, Lift.plan, Lift.Plan.loadModifyStore,
    Lift.Source.place_of 0 hsource rfl, Lift.Source.pair_of 1 hsource rfl rfl]
  rfl

theorem plan_compareSwap (ha : i.row.action = .compareSwap) : i.plan = Lift.emitting
    (kept p >>= fun x => skipping (.compare .eq .word x.2.2 (.reg (.d (k + 1))))
      (.store .word x.2.1 (.reg (.d k))) (.setReg (.d k) x.2.2 :: x.1.updates)) := by
  have hsource := (operands_of_access (.inr hops)).trans hops
  rw [Instruction.plan, ha, Lift.plan, Lift.Plan.compareSwap, Lift.Source.place_of 0 hsource rfl,
    Lift.Source.pair_of 1 hsource rfl rfl]
  simp only [kept, bind_assoc, pure_bind]
  rfl

end Plans

section Steps

variable (hi : m.instruction? isa = some i) (hp : p.Decoded)
include hi hp

theorem step_swap (ha : i.row.action = .swap) (hops : i.operands = [.place p, .reg (.d k)]) :
    ((m.step isa).2 = .done ↔ m.bus.Admits (p.address m.core) .word) ∧
      ((m.step isa).2 = .done → m.Exchanges p (fun _ => Operand.word m.core (.reg (.d k)))
        (Register.d k).cells (m.step isa).1) := by
  rw [← (hp.start m i).1]
  refine Machine.step_done_iff hi (plan_swap ha hops) (fun h s => ?_)
    fun h s => Lift.traps_swapping hp h _
  have hvalue := Lift.yields_data (m.start i) k s.temps
  exact .mono (Lift.runs_swapping hp h (fun _ => _) (fun _ _ _ hm _ => hvalue.along hm) k)
    fun _ _ _ h => h.of_start hp

variable (hops : i.operands = [.place p, .reg (.e k)])
include hops

theorem step_swapMasked (ha : i.row.action = .swapMasked) :
    ((m.step isa).2 = .done ↔ m.bus.Admits (p.address m.core) .word) ∧
      ((m.step isa).2 = .done → m.Exchanges p (fun old => merged old
        (Operand.word m.core (.reg (.d k))) (Operand.word m.core (.reg (.d (k + 1)))))
        (Register.d k).cells (m.step isa).1) := by
  rw [← (hp.start m i).1]
  refine Machine.step_done_iff hi (plan_swapMasked hops ha) (fun h s => ?_)
    fun h s => Lift.traps_swapping hp h _
  exact .mono (Lift.runs_swapping hp h (fun old => merged old _ _)
    (fun _ _ _ hm hold => Lift.yields_merged hm hold k) k) fun _ _ _ h => h.of_start hp

theorem step_loadModifyStore (ha : i.row.action = .loadModifyStore) :
    ((m.step isa).2 = .done ↔ m.bus.Admits (p.address m.core) .word) ∧
      ((m.step isa).2 = .done → m.Exchanges p (fun old => merged old
        (Operand.word m.core (.reg (.d k))) (Operand.word m.core (.reg (.d (k + 1))))) []
        (m.step isa).1) := by
  rw [← (hp.start m i).1]
  refine Machine.step_done_iff hi (plan_loadModifyStore hops ha) (fun h s => ?_)
    fun h s => Lift.traps_modifying hp h fun _ _ _ => Lift.eval_masked_error
  exact .mono (Lift.runs_modifying hp h (fun old => merged old _ _)
    fun _ _ _ hm hold => Lift.yields_merged hm hold k) fun _ _ _ h => h.of_start hp

theorem step_compareSwap (ha : i.row.action = .compareSwap) :
    ((m.step isa).2 = .done ↔ m.bus.Admits (p.address m.core) .word) ∧
      ((m.step isa).2 = .done → m.Exchanges p (fun old => compared old
        (Operand.word m.core (.reg (.d k))) (Operand.word m.core (.reg (.d (k + 1)))))
        (Register.d k).cells (m.step isa).1) := by
  have hplan := plan_compareSwap hops ha
  rw [← (hp.start m i).1]
  refine Machine.done_iff (fun h => ?_) fun h =>
    Machine.step_of_traps hi hplan fun s _ => .bind (Lift.traps_kept hp h)
  refine Machine.step_of_skip hi hplan (Lift.labelless_kept p) (fun _ => rfl) (fun s => ?_)
    fun s => Lift.runs_kept hp h fun x s' m₁ hkept => ?_
  · exact List.forall_mem_cons.2 ⟨rfl, Lift.Emit.Labelless.updates p s⟩
  · obtain ⟨v, m₂, m₃, hcond, hbody, hafter, hexchanges⟩ := hkept.compares hp h k
    exact ⟨v, m₂, m₃, hcond, hbody, hafter, hexchanges.of_start hp⟩

end Steps

/-- An exchange completes exactly if memory admits it. -/
theorem step_exchange {new : Word → Word} {written : List Register}
    (hi : m.instruction? isa = some i) (hops : i.operands = [.place p, .reg r]) (hp : p.Decoded)
    (hx : i.row.action.exchange? m.core r = some (new, written)) :
    ((m.step isa).2 = .done ↔ m.bus.Admits (p.address m.core) .word) ∧
      ((m.step isa).2 = .done → m.Exchanges p new written (m.step isa).1) := by
  cases ha : i.row.action with
  | swap =>
    rw [ha] at hx
    cases r with
    | d k => cases hx; exact step_swap hi hp ha hops
    | _ => cases hx
  | loadModifyStore =>
    rw [ha] at hx
    cases r with
    | e k => cases hx; exact step_loadModifyStore hi hp hops ha
    | _ => cases hx
  | swapMasked =>
    rw [ha] at hx
    cases r with
    | e k => cases hx; exact step_swapMasked hi hp hops ha
    | _ => cases hx
  | compareSwap =>
    rw [ha] at hx
    cases r with
    | e k => cases hx; exact step_compareSwap hi hp hops ha
    | _ => cases hx
  | _ => rw [ha] at hx; cases hx

end Instruction

/-! ## Operands -/

/-- The shape of the register that an exchange takes. -/
def Action.exchangeShape? : Action → Option Shape
  | swap => some .data
  | loadModifyStore | swapMasked | compareSwap => some .dataPair
  | _ => none

theorem Opcode.exchange_rows : ∀ g ∈ table, ∀ r ∈ g.rows, ∀ shape ∈ r.action.exchangeShape?,
    r.operands.map (·.shape) = [.place, shape] := by
  decide +kernel

theorem Action.exists_exchange {a : Action} {r : Register} (h : a.exchangeShape? = some r.shape)
    (c : Core) : ∃ new written, a.exchange? c r = some (new, written) := by
  cases a with
  | swap =>
    cases r with
    | d => exact ⟨_, _, rfl⟩
    | _ => cases h
  | loadModifyStore | swapMasked | compareSwap =>
    cases r with
    | e => exact ⟨_, _, rfl⟩
    | _ => cases h
  | _ => cases h

theorem Instruction.operands_of_exchange {isa : Isa} {m : Machine Window} {i : Instruction}
    {shape : Shape} (hi : m.instruction? isa = some i)
    (ha : i.row.action.exchangeShape? = some shape) :
    ∃ p r new written, i.operands = [.place p, .reg r] ∧ p.Decoded ∧
      i.row.action.exchange? m.core r = some (new, written) := by
  obtain ⟨g, hg, hr, raw, addr, hos⟩ := resolved hi
  have hrow := Opcode.exchange_rows g hg i.row hr shape ha
  rw [← shapes_of_resolved hos] at hrow
  simp only [List.map_eq_cons_iff, List.map_eq_nil_iff] at hrow
  obtain ⟨o, _, hops, ho, o', _, rfl, ho', rfl⟩ := hrow
  obtain ⟨p, rfl⟩ := Operand.exists_place ho
  have htakes : Role.register.takes shape = true := by
    cases haction : i.row.action <;> rw [haction] at ha <;> cases ha <;> rfl
  obtain ⟨r, rfl, -⟩ := Role.takes_register.1 (ho' ▸ htakes)
  obtain ⟨new, written, hx⟩ := Action.exists_exchange (r := r) (ha.trans (congrArg some ho'.symm))
    m.core
  exact ⟨p, r, new, written, hops, Place.decoded_of_mem hos (by rw [hops]; simp), hx⟩

end Tricore
