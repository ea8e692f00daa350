import Mathlib
import Tricore.Proofs.Labelling
import Tricore.Proofs.RegisterFile
import Tricore.Proofs.Successor

/-!
# Counted branches

A loop instruction and the branches that step a data register compare a register with a goal, step
it by one, and branch on what the comparison was. `Machine.Counts` says what one execution leaves.
`Machine.Revisits` is a series of executions of one instruction that has its register to itself, and
`Machine.Iterates` says on which of them the branch is taken (`counted_branches_iterate`).
-/

namespace Tricore

/-! ## Steps -/

/-- A test that is kept in a word. -/
theorem Expr.Yields.isSet {β : Type} [Bus β] {m : Machine β} {n : Nat} {e : Expr} {b : Bool}
    (h : e.Yields m n ((BitVec.ofBool b).setWidth 32)) : (Lift.isSet e).Decides m n b := by
  have htest : (Lift.isSet e).Decides m n _ := h.ne (.const 0 rfl) rfl
  cases b <;> exact htest

namespace Machine

variable {β : Type} [Bus β] {isa : Isa} {m : Machine β} {i : Instruction} {α : Type}

/-- A step of an instruction that ends in a two-way branch. -/
theorem step_of_branch (first : Lift.Emit α) (cond : α → Expr) {t : Address}
    {Q : Machine β → Prop} (hi : m.instruction? isa = some i)
    (hplan : i.plan = Lift.emitting (first >>= fun x => Lift.branchTo (cond x) t i.next))
    (hfirst : first.Labelless)
    (h : ∀ s, first.Runs i.addr s (m.start i) fun x _ m₁ => ∃ taken,
      (cond x).eval m₁ = .ok (truth taken) ∧ Q (if taken then m₁.goTo t else m₁)) :
    (m.step isa).2 = .done ∧ Q (m.step isa).1 := by
  obtain ⟨bytes, hf, hd⟩ := instruction?_eq_some.1 hi
  let s : Lift.Supply := { temps := 0, labels := 0, labelAt? := fun _ => none }
  obtain ⟨m₁, hrun, taken, hcond, hQ⟩ := h s
  have hsupply := congrArg (·.2.2) ((hfirst s).relabel 0 fun _ => none)
  have hknown : (first s).2.2.labelAt? = fun _ => none := congrArg (·.labelAt?) hsupply
  have hleads : Leads (fun _ => none) (fun _ => none) (first s).2.2.labels :=
    ⟨leads_none.bound, fun _ _ => rfl⟩
  have hcode : Lift.code (first >>= fun x => Lift.branchTo (cond x) t i.next) = (first s).2.1 ++
      Lift.branchCode (fun _ => none) (first s).2.2.labels (cond (first s).1) t i.next := by
    rw [← hknown, ← (Lift.branchTo_eq (cond (first s).1) t i.next (first s).2.2).1]
    rfl
  have hstep : m.step isa = (if taken then m₁.goTo t else m₁, .done) := by
    rw [step_of_plan hf hd hplan, ← runIn_none, hcode, List.length_append,
      runIn_append (hfirst s).stmts, runAll, hrun.run, andThen,
      Lift.runIn_branchCode hleads (first s).2.1]
    simp only [hcond, truth_ne_zero]
    rfl
  rw [hstep]
  exact ⟨rfl, hQ⟩

/-- The register has been stepped, and control is at the target unless it was at its goal. -/
structure Counts (m : Machine β) (i : Instruction) (r : Register) (step goal : Word) (t : Address)
    (m' : Machine β) : Prop where
  stepped : m'.core.read r = (Operand.word m.core (.reg r) + step).setWidth 64
  pc : m'.core.pc = if Operand.word m.core (.reg r) = goal then i.next else t

variable {r : Register} {step goal : Word} {t : Address}

/-- Stepping the register changes neither the test nor where to fall through to. -/
theorem counts_of_write (hr : (Operand.reg r).IsSingle) {m₁ : Machine β} {n : Nat} {e : Expr}
    (hpc : m₁.core.pc = i.next) (he : e.Keeps m₁ n
      ((BitVec.ofBool (decide (Operand.word m.core (.reg r) ≠ goal))).setWidth 32)) :
    let m₂ := m₁.withCore (·.write r ((Operand.word m.core (.reg r) + step).setWidth 64))
    ∃ taken, (Lift.isSet e).eval m₂ = .ok (truth taken) ∧
      m.Counts i r step goal t (if taken then m₂.goTo t else m₂) := by
  generalize hv : Operand.word m.core (.reg r) = v at he ⊢
  intro m₂
  have hread : m₂.core.read r = (v + step).setWidth 64 := by
    rw [show m₂.core.read r = _ from Core.read_write_own _ r _]
    cases r with
    | d | a => exact Width.cut_word _
    | _ => simp [Operand.IsSingle, Operand.shape, Register.shape] at hr
  have hsame : m₁.SameTemps n m₂ ∧ m₂.core.pc = i.next ∧
      (m₂.goTo t).core.read r = m₂.core.read r := by
    cases r with
    | d | a => exact ⟨fun _ _ => ⟨rfl, rfl⟩, hpc, rfl⟩
    | _ => simp [Operand.IsSingle, Operand.shape, Register.shape] at hr
  obtain ⟨hsame, hfall, hgoTo⟩ := hsame
  have htest := (he m₂ hsame).isSet.eval m₂ (.refl m₂ n)
  by_cases hgoal : v = goal
  · refine ⟨false, by simpa [hgoal, truth] using htest, ?_, ?_⟩
    · rw [hv]
      exact hread
    · rw [hv, if_pos hgoal]
      exact hfall
  · refine ⟨true, by simpa [hgoal, truth] using htest, ?_, ?_⟩
    · rw [hv]
      exact hgoTo.trans hread
    · rw [hv, if_neg hgoal]
      rfl

/-- The comparison is kept while the register is stepped. -/
theorem step_counts {x y : Expr} (hi : m.instruction? isa = some i)
    (hr : (Operand.reg r).IsSingle)
    (hplan : i.plan = Lift.emitting (do
      let differ ← Lift.temp (.compare .ne .word (.reg r) y)
      Lift.set r x
      Lift.branchTo (Lift.isSet differ) t i.next))
    (hy : y.Yields (m.start i) 0 goal)
    (hx : x.Yields (m.start i) 0 (Operand.word m.core (.reg r) + step)) :
    (m.step isa).2 = .done ∧ m.Counts i r step goal t (m.step isa).1 := by
  let first : Lift.Emit Expr := do
    let differ ← Lift.temp (.compare .ne .word (.reg r) y)
    Lift.set r x
    pure (Lift.isSet differ)
  refine step_of_branch first id hi hplan (.temp_bind fun _ => .bind .set fun _ => .pure _)
    fun s => ?_
  have hstart := Grows.refl (m.start i) 0
  have hdiffer : (Expr.compare .ne .word (.reg r) y).Decides (m.start i) s.temps _ :=
    (hr.yields m i s.temps).ne (hy.mono hstart (Nat.zero_le _)) rfl
  refine .bind (.temp_truthKeeps hdiffer fun m₁ e hm₁ he => ?_)
  refine .bind (.set ((hx.mono hstart (Nat.zero_le _)).along hm₁) (.pure ?_))
  have hpc : m₁.core.pc = i.next := Core.pc_eq_of_read (hm₁.grows.read .pc trivial)
  exact counts_of_write hr hpc he

end Machine

namespace Instruction

variable {β : Type} [Bus β] {isa : Isa} {m : Machine β} {i : Instruction} {k : Nat} {t : Address}

theorem step_loop (hi : m.instruction? isa = some i) (ha : i.row.action = .loop)
    (hops : i.operands = [.reg (.a k), .target t]) :
    (m.step isa).2 = .done ∧ m.Counts i (.a k) (-1) 0 t (m.step isa).1 := by
  have hsource : (Lift.Source.of i).operands = [.reg (.a k), .target t] :=
    (operands_of_unselected (by rw [hops]; simp [Operand.shape, Register.shape])).trans hops
  have hsingle : (Operand.reg (.a k)).IsSingle := .tail _ (.head _)
  refine Machine.step_counts hi hsingle (plan_loop ha hsource) (.const 0 rfl) ?_
  rw [← BitVec.sub_eq_add_neg]
  exact (hsingle.yields m i 0).sub (.const 1 rfl) rfl

theorem step_branchStep {step : Word} {y : Operand} (hi : m.instruction? isa = some i)
    (ha : i.row.action = .branchStep step) (hops : i.operands = [.reg (.d k), y, .target t])
    (hy : y.IsWord) :
    (m.step isa).2 = .done ∧ m.Counts i (.d k) step (y.word m.core) t (m.step isa).1 := by
  have hsource : (Lift.Source.of i).operands = [.reg (.d k), y, .target t] := by
    refine (operands_of_unselected ?_).trans hops
    rw [hops]
    refine List.forall_mem_cons.2 ⟨nofun, List.forall_mem_cons.2 ⟨?_, by simp [Operand.shape]⟩⟩
    rcases hy with hy | hy <;> rw [hy] <;> decide
  have hsingle : (Operand.reg (.d k)).IsSingle := .head _
  refine Machine.step_counts hi hsingle (plan_branchStep ha hsource hy.takes) (hy.yields m i 0) ?_
  have hstep : (Expr.word step).Yields (m.start i) 0 ((step.setWidth 64).setWidth 32) :=
    .const _ rfl
  rw [BitVec.setWidth_setWidth_of_le step (by decide), BitVec.setWidth_eq] at hstep
  exact (hsingle.yields m i 0).add hstep rfl

end Instruction

/-! ## Series of executions -/

namespace Machine

variable {β : Type} [Bus β]

/-- The instruction is executed `n` times, by `visit 0`, `visit 1` and so on. In between, anything
may happen that leaves the register alone. -/
structure Revisits (isa : Isa) (i : Instruction) (r : Register) (n : Nat)
    (visit : Nat → Machine β) : Prop where
  here : ∀ j < n, (visit j).instruction? isa = some i
  kept : ∀ j, j + 1 < n → (visit (j + 1)).core.read r = ((visit j).step isa).1.core.read r

/-- The branch is taken on the first `count` of `n` visits and not on the next one, and each visit
steps the register. Should there be more visits, it is taken until the register has gone around. -/
structure Iterates (isa : Isa) (i : Instruction) (r : Register) (t : Address) (step start : Word)
    (count n : Nat) (visit : Nat → Machine β) : Prop where
  done : ∀ j < n, ((visit j).step isa).2 = .done
  stepped : ∀ j < n, ((visit j).step isa).1.core.read r =
    (start + BitVec.ofNat 32 (j + 1) * step).setWidth 64
  taken : ∀ j < n, j < count → ((visit j).step isa).1.core.pc = t
  left : count < n → ((visit count).step isa).1.core.pc = i.next
  again : ∀ j < n, j % 2 ^ 32 ≠ count → ((visit j).step isa).1.core.pc = t

variable {isa : Isa} {i : Instruction} {r : Register} {n : Nat} {visit : Nat → Machine β}
  {step goal : Word} {t : Address}

theorem Revisits.word_eq (h : Revisits isa i r n visit)
    (hcounts : ∀ j < n, (visit j).Counts i r step goal t ((visit j).step isa).1) :
    ∀ j < n, Operand.word (visit j).core (.reg r) =
      Operand.word (visit 0).core (.reg r) + BitVec.ofNat 32 j * step := by
  intro j
  induction j with
  | zero => simp
  | succ j ih =>
    intro hj
    have hstepped := (hcounts j (by omega)).stepped
    have hword : Operand.word (visit (j + 1)).core (.reg r) =
        Operand.word (visit j).core (.reg r) + step := by
      rw [Operand.word, Operand.value, h.kept j hj, hstepped,
        BitVec.setWidth_setWidth_of_le _ (by decide), BitVec.setWidth_eq]
    rw [hword, ih (by omega), BitVec.ofNat_add, BitVec.add_mul, BitVec.add_assoc]
    simp

theorem Revisits.iterates (h : Revisits isa i r n visit)
    (hstep : ∀ j < n, ((visit j).step isa).2 = .done ∧
      (visit j).Counts i r step goal t ((visit j).step isa).1) {count : Word}
    (hcount : ∀ k : Word, Operand.word (visit 0).core (.reg r) + k * step = goal ↔ k = count) :
    Iterates isa i r t step (Operand.word (visit 0).core (.reg r)) count.toNat n visit := by
  have hword := h.word_eq fun j hj => (hstep j hj).2
  have hpc : ∀ j < n, ((visit j).step isa).1.core.pc =
      if j % 2 ^ 32 = count.toNat then i.next else t := by
    intro j hj
    rw [(hstep j hj).2.pc, hword j hj]
    refine if_congr ?_ rfl rfl
    rw [hcount, ← BitVec.toNat_inj, BitVec.toNat_ofNat]
  have hlt := count.isLt
  refine ⟨fun j hj => (hstep j hj).1, fun j hj => ?_, fun j hj hjc => ?_, fun hn => ?_,
    fun j hj hne => ?_⟩
  · rw [(hstep j hj).2.stepped, hword j hj, BitVec.ofNat_add, BitVec.add_mul, BitVec.add_assoc]
    simp
  · rw [hpc j hj, Nat.mod_eq_of_lt (by omega), if_neg (by omega)]
  · rw [hpc _ hn, Nat.mod_eq_of_lt hlt, if_pos rfl]
  · rw [hpc j hj, if_neg hne]

end Machine

/-! ## The instructions -/

theorem Opcode.counting_rows : ∀ g ∈ table, ∀ r ∈ g.rows,
    (r.mnemonic = "loop" → r.action = .loop ∧
      r.operands.map (·.shape) = [.address, .target]) ∧
    ∀ p ∈ [("jnei", (1 : Word)), ("jned", -1)], r.mnemonic = p.1 → r.action = .branchStep p.2 ∧
      ∃ source ∈ [Shape.data, .imm], r.operands.map (·.shape) = [.data, source, .target] := by
  decide +kernel

theorem Operand.exists_address {o : Operand} (h : o.shape = .address) : ∃ n, o = .reg (.a n) := by
  cases o with
  | reg r =>
    cases r with
    | a n => exact ⟨n, rfl⟩
    | _ => cases h
  | _ => cases h

namespace Instruction

variable {isa : Isa} {bytes : List Byte} {p : Address} {i : Instruction}

theorem operands_of_loop (hd : decode isa bytes p = .ok i) (hname : i.mnemonic = "loop") :
    i.row.action = .loop ∧ ∃ k t, i.operands = [.reg (.a k), .target t] := by
  obtain ⟨e, -, -, -, g, hg, hr, hos⟩ := of_decode hd
  obtain ⟨ha, hshapes⟩ := (Opcode.counting_rows g hg i.row hr).1 hname
  rw [← shapes_of_resolved (forall₂_of_mapM hos)] at hshapes
  simp only [List.map_eq_cons_iff, List.map_eq_nil_iff] at hshapes
  obtain ⟨x, _, hops, hx, y, _, rfl, hy, rfl⟩ := hshapes
  obtain ⟨k, rfl⟩ := Operand.exists_address hx
  obtain ⟨t, rfl⟩ := Role.takes_target.1 (by rw [hy]; rfl)
  exact ⟨ha, k, t, hops⟩

theorem operands_of_branchStep {step : Word} (hd : decode isa bytes p = .ok i)
    (hname : (i.mnemonic, step) ∈ [("jnei", (1 : Word)), ("jned", -1)]) :
    i.row.action = .branchStep step ∧
      ∃ k y t, i.operands = [.reg (.d k), y, .target t] ∧ y.IsWord := by
  obtain ⟨e, -, -, -, g, hg, hr, hos⟩ := of_decode hd
  obtain ⟨ha, source, hsource, hshapes⟩ := (Opcode.counting_rows g hg i.row hr).2 _ hname rfl
  rw [← shapes_of_resolved (forall₂_of_mapM hos)] at hshapes
  simp only [List.map_eq_cons_iff, List.map_eq_nil_iff] at hshapes
  obtain ⟨x, _, hops, hx, y, _, rfl, rfl, o, _, rfl, ho, rfl⟩ := hshapes
  obtain ⟨k, rfl⟩ := Operand.exists_data hx
  obtain ⟨t, rfl⟩ := Role.takes_target.1 (by rw [ho]; rfl)
  exact ⟨ha, k, y, t, hops, by simpa [Operand.IsWord] using hsource⟩

/-- The instruction steps a data register towards its other operand. Where that one stays the same,
`count` says from the register's first value and the goal how often the branch is taken. -/
def StepsTowards (β : Type) [Bus β] (isa : Isa) (i : Instruction) (step : Word)
    (count : Word → Word → Word) : Prop :=
  ∃ k y t, i.operands = [.reg (.d k), y, .target t] ∧ y.IsWord ∧
    ∀ (n : Nat) (visit : Nat → Machine β) (start goal : Word),
      Machine.Revisits isa i (.d k) n visit → Operand.word (visit 0).core (.reg (.d k)) = start →
      (∀ j < n, y.word (visit j).core = goal) →
      Machine.Iterates isa i (.d k) t step start (count start goal).toNat n visit

theorem stepsTowards {β : Type} [Bus β] {step : Word} (hd : decode isa bytes p = .ok i)
    (hname : (i.mnemonic, step) ∈ [("jnei", (1 : Word)), ("jned", -1)])
    {count : Word → Word → Word}
    (hcount : ∀ start goal k : Word, start + k * step = goal ↔ k = count start goal) :
    i.StepsTowards β isa step count := by
  obtain ⟨ha, k, y, t, hops, hy⟩ := operands_of_branchStep hd hname
  refine ⟨k, y, t, hops, hy, ?_⟩
  rintro n visit _ goal hvisits rfl hgoal
  refine hvisits.iterates (fun j hj => ?_) (hcount _ goal)
  rw [← hgoal j hj]
  exact step_branchStep (hvisits.here j hj) ha hops hy

end Instruction

/-- Counted branches are taken the right number of times. A loop is taken as often as its register
says, and leaves it at the greatest word; the branches that step a data register up or down are
taken until it has reached its goal, around the end of the words if need be. -/
theorem counted_branches_iterate {β : Type} [Bus β] {isa : Isa} {bytes : List Byte} {p : Address}
    {i : Instruction} (hd : Instruction.decode isa bytes p = .ok i) :
    (i.mnemonic = "loop" → ∃ k t, i.operands = [.reg (.a k), .target t] ∧
      ∀ (n : Nat) (visit : Nat → Machine β) (start : Word),
        Machine.Revisits isa i (.a k) n visit →
        Operand.word (visit 0).core (.reg (.a k)) = start →
        Machine.Iterates isa i (.a k) t (-1) start start.toNat n visit ∧
          (start.toNat < n →
            ((visit start.toNat).step isa).1.core.read (.a k) = 0xFFFFFFFF)) ∧
    (i.mnemonic = "jnei" → i.StepsTowards β isa 1 fun start goal => goal - start) ∧
    (i.mnemonic = "jned" → i.StepsTowards β isa (-1) fun start goal => start - goal) := by
  have hdown (start goal k : Word) : start + k * -1 = goal ↔ k = start - goal := by grind
  have hlast (start : Word) : start + BitVec.ofNat 32 (start.toNat + 1) * -1 = 0xFFFFFFFF := by
    rw [BitVec.ofNat_add, BitVec.ofNat_toNat, BitVec.setWidth_eq]
    grind
  refine ⟨fun hname => ?_, fun hname => ?_, fun hname => ?_⟩
  · obtain ⟨ha, k, t, hops⟩ := Instruction.operands_of_loop hd hname
    refine ⟨k, t, hops, ?_⟩
    rintro n visit start hvisits rfl
    have hiterates := hvisits.iterates
      (fun j hj => Instruction.step_loop (hvisits.here j hj) ha hops)
      fun j => (hdown _ 0 j).trans (by rw [sub_zero])
    refine ⟨hiterates, fun hn => ?_⟩
    rw [hiterates.stepped _ hn, hlast]
    rfl
  · exact Instruction.stepsTowards hd (by simp [hname]) fun start goal k => by grind
  · exact Instruction.stepsTowards hd (by simp [hname]) hdown

/-- `loop a2, 0` and `jnei d1, 1, 4`, which branch to themselves. -/
def spinning : Machine Window where
  core := (({} : Core).write (.a 2) 2).write (.d 1) 0xFFFFFFFF
  bus := { base := 0, size := 8, bytes := .putAll .empty 0 ([0xFD, 0x20, 0x00, 0x00] ++
    [0x9F, 0x11, 0x00, 0x00]) }

/-- Both are taken twice, the second one as its register goes around. -/
theorem counted_branches_iterate_twice :
    (spinning.after .v16 2).core.pc = 0 ∧ (spinning.after .v16 3).core.pc = 4 ∧
      (spinning.after .v16 3).core.read (.a 2) = 0xFFFFFFFF ∧
      (spinning.after .v16 5).core.pc = 4 ∧ (spinning.after .v16 6).core.pc = 8 ∧
      (spinning.after .v16 6).core.read (.d 1) = 2 := by
  obtain ⟨i, hd, hname, hoperands, hnext, hhere⟩ : ∃ i,
      Instruction.decode .v16 [0xFD, 0x20, 0x00, 0x00] 0 = .ok i ∧ i.mnemonic = "loop" ∧
      i.operands = [.reg (.a 2), .target 0] ∧ i.next = 4 ∧
      ∀ j < 3, (spinning.after .v16 j).instruction? .v16 = some i :=
    ⟨_, rfl, by decide +kernel⟩
  obtain ⟨i', hd', hname', hoperands', hnext', hhere'⟩ : ∃ i,
      Instruction.decode .v16 [0x9F, 0x11, 0x00, 0x00] 4 = .ok i ∧ i.mnemonic = "jnei" ∧
      i.operands = [.reg (.d 1), .imm 1, .target 4] ∧ i.next = 8 ∧
      ∀ j < 3, (spinning.after .v16 (j + 3)).instruction? .v16 = some i :=
    ⟨_, rfl, by decide +kernel⟩
  obtain ⟨k, t, hops, hloop⟩ := (counted_branches_iterate (β := Window) hd).1 hname
  obtain ⟨k', y, t', hops', -, hstep⟩ := (counted_branches_iterate (β := Window) hd').2.1 hname'
  rw [hoperands] at hops
  rw [hoperands'] at hops'
  cases hops
  cases hops'
  obtain ⟨hiterates, hlast⟩ := hloop 3 (spinning.after .v16) 2 ⟨hhere, fun _ _ => rfl⟩
    (by decide +kernel)
  have hiterates' := hstep 3 (fun j => spinning.after .v16 (j + 3)) 0xFFFFFFFF 1
    ⟨hhere', fun _ _ => rfl⟩ (by decide +kernel) fun _ _ => rfl
  refine ⟨hiterates.taken 1 (by decide) (by decide), ?_, hlast (by decide),
    hiterates'.taken 1 (by decide) (by decide), ?_, ?_⟩
  · exact (hiterates.left (by decide)).trans hnext
  · exact (hiterates'.left (by decide)).trans hnext'
  · exact (hiterates'.stepped 2 (by decide)).trans (by decide +kernel)

end Tricore
