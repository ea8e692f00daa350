import Mathlib
import Tricore.Proofs.CheckedState
import Tricore.Proofs.FieldComposition
import Tricore.Proofs.RegisterFile

/-!
# Splitting and merging bits

A split takes the odd and the even bits of a word apart, and a merge puts the low half-words of two
words to these places. `everyOther` bit of a merge is a half-word of one source, and a word is the
merge of its own odd and even bits, so that each operation undoes the other.
`Instruction.step_dataIntrinsic` says what a step does that computes a register from its other
operands, and carries this over to instructions: a merge of the pair that a split has left gives the
source of the split (`bit_shuffles_invert`), also where the pair has overwritten it.
-/

namespace Tricore

/-! ## Every other bit -/

/-- Every other bit of a word, from bit `lo` on. -/
def everyOther (lo : Nat) (x : Word) : BitVec 16 := ofBits (fun i => x.getLsbD (2 * i + lo)) 16

theorem bsplit_eq_append (x : Word) :
    bsplit x = (everyOther 1 x).setWidth 32 ++ (everyOther 0 x).setWidth 32 := rfl

theorem getLsbD_everyOther (lo : Nat) (x : Word) {j : Nat} (hj : j < 16) :
    (everyOther lo x).getLsbD j = x.getLsbD (2 * j + lo) := by
  rw [everyOther, Checked.getLsbD_ofBits, decide_eq_true hj, Bool.true_and]

theorem getLsbD_bmerge (a b : Word) {j : Nat} (hj : j < 32) :
    (bmerge a b).getLsbD j = if j % 2 = 1 then a.getLsbD (j / 2) else b.getLsbD (j / 2) := by
  rw [bmerge, Checked.getLsbD_ofBits, decide_eq_true hj, Bool.true_and]

theorem getLsbD_bmerge_odd (a b : Word) {j : Nat} (hj : j < 16) :
    (bmerge a b).getLsbD (2 * j + 1) = a.getLsbD j := by
  have hodd : (2 * j + 1) % 2 = 1 := by omega
  have hhalf : (2 * j + 1) / 2 = j := by omega
  rw [getLsbD_bmerge a b (by omega), if_pos hodd, hhalf]

theorem getLsbD_bmerge_even (a b : Word) {j : Nat} (hj : j < 16) :
    (bmerge a b).getLsbD (2 * j) = b.getLsbD j := by
  have heven : ¬ 2 * j % 2 = 1 := by omega
  have hhalf : 2 * j / 2 = j := by omega
  rw [getLsbD_bmerge a b (by omega), if_neg heven, hhalf]

theorem everyOther_one_bmerge (a b : Word) : everyOther 1 (bmerge a b) = a.setWidth 16 := by
  refine BitVec.eq_of_getLsbD_eq fun j hj => ?_
  rw [getLsbD_everyOther 1 _ hj, getLsbD_bmerge_odd a b hj, BitVec.getLsbD_setWidth,
    decide_eq_true hj, Bool.true_and]

theorem everyOther_zero_bmerge (a b : Word) : everyOther 0 (bmerge a b) = b.setWidth 16 := by
  refine BitVec.eq_of_getLsbD_eq fun j hj => ?_
  rw [getLsbD_everyOther 0 _ hj, Nat.add_zero, getLsbD_bmerge_even a b hj, BitVec.getLsbD_setWidth,
    decide_eq_true hj, Bool.true_and]

/-- A word is the merge of its odd and its even bits. -/
theorem bmerge_everyOther (x : Word) :
    bmerge ((everyOther 1 x).setWidth 32) ((everyOther 0 x).setWidth 32) = x := by
  have hbit (lo : Nat) {j : Nat} (hj : j < 32) :
      ((everyOther lo x).setWidth 32).getLsbD (j / 2) = x.getLsbD (2 * (j / 2) + lo) := by
    have hword : j / 2 < 32 := by omega
    rw [BitVec.getLsbD_setWidth, decide_eq_true hword, Bool.true_and,
      getLsbD_everyOther lo x (by omega)]
  refine BitVec.eq_of_getLsbD_eq fun j hj => ?_
  rw [getLsbD_bmerge _ _ hj, hbit 1 hj, hbit 0 hj]
  split_ifs with hodd
  · rw [show 2 * (j / 2) + 1 = j by omega]
  · rw [show 2 * (j / 2) + 0 = j by omega]

/-! ## Splits and merges -/

theorem toNat_bsplit_bmerge (a b : Word) :
    (bsplit (bmerge a b)).toNat = a.toNat % 2 ^ 16 * 2 ^ 32 + b.toNat % 2 ^ 16 := by
  have hhalf (z : Word) : ((z.setWidth 16).setWidth 32).toNat = z.toNat % 2 ^ 16 := by
    rw [BitVec.toNat_setWidth_of_le (by decide), BitVec.toNat_setWidth]
  rw [bsplit_eq_append, everyOther_one_bmerge, everyOther_zero_bmerge]
  refine (Core.toNat_pair _ _).trans ?_
  rw [hhalf, hhalf, Nat.mul_comm]

theorem bmerge_bsplit (x : Word) :
    bmerge ((bsplit x).extractLsb' 32 32) ((bsplit x).extractLsb' 0 32) = x := by
  rw [bsplit_eq_append, BitVec.extractLsb'_append_eq_left, BitVec.extractLsb'_append_eq_right,
    bmerge_everyOther]

/-! ## Steps -/

namespace Lift.Source

variable {s : Source} {os : List Operand}

theorem mapM_value_of (first : List Operand) (h : s.operands = first ++ os)
    (hvalues : ∀ o ∈ os, Role.value.takes o.shape = true) :
    (List.range' first.length os.length).mapM s.value = .ok (os.map (·.expr)) := by
  -- What has been read goes to the front, and the next index is its length.
  induction os generalizing first with
  | nil => rfl
  | cons o os ih =>
    obtain ⟨ho, hos⟩ := List.forall_mem_cons.1 hvalues
    have hrest := ih (first ++ [o]) (by simp [h]) hos
    rw [List.length_append, List.length_singleton] at hrest
    rw [List.length_cons, List.range'_succ, List.mapM_cons, hrest,
      value_of first.length h (by simp) ho]
    rfl

/-- The operands after the first ones, as values. -/
theorem values_of (first : List Operand) (h : s.operands = first ++ os)
    (hvalues : ∀ o ∈ os, Role.value.takes o.shape = true) :
    s.values first.length = .ok (os.map (·.expr)) := by
  have harity : s.arity - first.length = os.length := by
    rw [arity, h, List.length_append, Nat.add_sub_cancel_left]
  rw [values, harity]
  exact mapM_value_of first h hvalues

end Lift.Source

namespace Instruction

variable {β : Type} [Bus β] {isa : Isa} {m m' : Machine β} {i : Instruction}

theorem evalList_operands (m : Machine β) (i : Instruction) {os : List Operand}
    (hvalues : ∀ o ∈ os, Role.value.takes o.shape = true) :
    Expr.evalList (m.start i) (os.map (·.expr)) = .ok (os.map (·.value m.core)) := by
  induction os with
  | nil => rfl
  | cons o os ih =>
    obtain ⟨ho, hos⟩ := List.forall_mem_cons.1 hvalues
    rw [List.map_cons, Expr.evalList, Operand.eval_expr m i ho, ih hos]
    rfl

/-- A step that computes its first operand from the values of the others. -/
theorem step_dataIntrinsic {c : Intrinsic} {d : Register} {os : List Operand}
    (hi : m.instruction? isa = some i) (ha : i.row.action = .dataIntrinsic c)
    (hops : i.operands = .reg d :: os)
    (hvalues : ∀ o ∈ i.operands, Role.value.takes o.shape = true)
    (h : (m.start i).intrinsic i.addr c [d] (os.map (·.value m.core)) = (m', none)) :
    m.step isa = (m', .done) := by
  have hos : ∀ o ∈ os, Role.value.takes o.shape = true := fun o ho =>
    hvalues o (hops ▸ List.mem_cons_of_mem _ ho)
  have hsource := (operands_of_values hvalues).trans hops
  have hinputs : (Lift.Source.of i).values 1 = .ok (os.map (·.expr)) :=
    Lift.Source.values_of [.reg d] hsource hos
  have hplan : i.plan = Lift.emitting (Lift.intrinsic c [d] (os.map (·.expr))) := by
    rw [Instruction.plan, ha, Lift.plan, Lift.Plan.dataIntrinsic,
      Lift.Source.reg_of 0 hsource rfl, hinputs]
    rfl
  have hcall : (Stmt.intrinsic c [d] (os.map (·.expr))).exec i.addr (m.start i) = (m', .next) := by
    simp only [Stmt.exec, evalList_operands m i hos, h]
    rfl
  obtain ⟨hdone, hstep⟩ := Machine.step_of_runs hi hplan (Q := (· = m')) fun _ _ => .emit hcall rfl
  exact Prod.ext hstep hdone

end Instruction

/-- The rows of these instructions. -/
theorem Opcode.shuffle_rows : ∀ g ∈ table, ∀ r ∈ g.rows,
    (r.mnemonic = "bsplit" → r.action = .dataIntrinsic .bsplit ∧
      r.operands.map (·.shape) = [.dataPair, .data]) ∧
    (r.mnemonic = "bmerge" → r.action = .dataIntrinsic .bmerge) := by
  decide +kernel

namespace Instruction

variable {β : Type} [Bus β] {isa : Isa} {m : Machine β} {i : Instruction}

/-- A split takes a data register apart into a pair. -/
theorem step_bsplit (hi : m.instruction? isa = some i) (hname : i.mnemonic = "bsplit") :
    ∃ pair src, i.operands = [.reg (.e pair), .reg (.d src)] ∧
      m.step isa = ((m.start i).withCore (·.write (.e pair)
        (bsplit (Operand.word m.core (.reg (.d src))))), .done) := by
  obtain ⟨g, hg, hr, raw, addr, hos⟩ := resolved hi
  obtain ⟨ha, hshapes⟩ := (Opcode.shuffle_rows g hg i.row hr).1 hname
  rw [← shapes_of_resolved hos] at hshapes
  simp only [List.map_eq_cons_iff, List.map_eq_nil_iff] at hshapes
  obtain ⟨o, _, hops, ho, x, _, rfl, hx, rfl⟩ := hshapes
  obtain ⟨pair, rfl⟩ := Operand.exists_dataPair ho
  obtain ⟨src, rfl⟩ := Operand.exists_data hx
  have hvalues : ∀ o ∈ i.operands, Role.value.takes o.shape = true := by
    simp only [hops, List.forall_mem_cons]
    exact ⟨rfl, rfl, by simp⟩
  exact ⟨pair, src, hops, step_dataIntrinsic hi ha hops hvalues rfl⟩

theorem step_bmerge {dst x y : Nat} (hi : m.instruction? isa = some i)
    (hname : i.mnemonic = "bmerge")
    (hops : i.operands = [.reg (.d dst), .reg (.d x), .reg (.d y)]) :
    m.step isa = ((m.start i).withCore (·.write (.d dst)
      ((bmerge (Operand.word m.core (.reg (.d x))) (Operand.word m.core (.reg (.d y)))).setWidth
        64)), .done) := by
  obtain ⟨g, hg, hr, -⟩ := resolved hi
  have ha := (Opcode.shuffle_rows g hg i.row hr).2 hname
  have hvalues : ∀ o ∈ i.operands, Role.value.takes o.shape = true := by
    simp only [hops, List.forall_mem_cons]
    exact ⟨rfl, rfl, rfl, by simp⟩
  exact step_dataIntrinsic hi ha hops hvalues rfl

end Instruction

/-! ## Inverses -/

/-- Merging and splitting are inverse to each other on half-words, and a merge of the pair that a
split has left restores the word that was split, whichever registers they take. -/
theorem bit_shuffles_invert (isa : Isa) :
    (∀ a b : Word,
      (∀ j < 16, (bmerge a b).getLsbD (2 * j + 1) = a.getLsbD j ∧
        (bmerge a b).getLsbD (2 * j) = b.getLsbD j) ∧
      (bsplit (bmerge a b)).toNat = a.toNat % 2 ^ 16 * 2 ^ 32 + b.toNat % 2 ^ 16) ∧
    (∀ x : Word, bmerge ((bsplit x).extractLsb' 32 32) ((bsplit x).extractLsb' 0 32) = x) ∧
    ∀ {β : Type} [Bus β] (m : Machine β) (i : Instruction),
      m.instruction? isa = some i → i.mnemonic = "bsplit" →
      ∃ pair src, i.operands = [.reg (.e pair), .reg (.d src)] ∧ (m.step isa).2 = .done ∧
        (m.step isa).1.core.read (.e pair) = bsplit (Operand.word m.core (.reg (.d src))) ∧
        ∀ {γ : Type} [Bus γ] (isa' : Isa) (m' : Machine γ) (j : Instruction) (dst : Nat),
          m'.instruction? isa' = some j → j.mnemonic = "bmerge" →
          j.operands = [.reg (.d dst), .reg (.d (pair + 1)), .reg (.d pair)] →
          m'.core.read (.e pair) = (m.step isa).1.core.read (.e pair) →
          (m'.step isa').2 = .done ∧
            (m'.step isa').1.core.read (.d dst) = m.core.read (.d src) := by
  refine ⟨fun a b => ⟨fun j hj => ⟨getLsbD_bmerge_odd a b hj, getLsbD_bmerge_even a b hj⟩,
    toNat_bsplit_bmerge a b⟩, bmerge_bsplit, fun m i hi hname => ?_⟩
  obtain ⟨pair, src, hops, hstep⟩ := Instruction.step_bsplit hi hname
  have hsplit : (m.step isa).1.core.read (.e pair) =
      bsplit (Operand.word m.core (.reg (.d src))) := by
    rw [hstep]
    exact Core.read_write_e _ _ _
  refine ⟨pair, src, hops, by rw [hstep], hsplit, fun isa' m' j dst hj hname' hops' hread => ?_⟩
  -- Both halves are read before the destination is written, so the destination may be one of them.
  obtain ⟨hlow, hhigh⟩ := Core.words_of_e ((hread.trans hsplit).trans (bsplit_eq_append _))
  rw [Instruction.step_bmerge hj hname' hops', hlow, hhigh, bmerge_everyOther]
  refine ⟨rfl, ((Register.Takes.word dst).read_write _ _).trans ?_⟩
  simp [Operand.word, Operand.value, Core.read, Register.canonical]

/-- `bsplit e2, d2` and `bmerge d3, d3, d2`. -/
def splitAndMerge : Machine Window where
  core := ({} : Core).setD 2 0x92A5C3F1
  bus := { base := 0, size := 8, bytes := .putAll .empty 0 ([0x4B, 0x02, 0x90, 0x20] ++
    [0x4B, 0x23, 0x10, 0x30]) }

/-- The split overwrites its source, and the merge one half of the pair. -/
theorem bit_shuffles_invert_overwritten :
    (splitAndMerge.step .v16).1.core.read (.e 2) = 0x00009C9C0000439D ∧
      ((splitAndMerge.step .v16).1.step .v16).2 = .done ∧
      ((splitAndMerge.step .v16).1.step .v16).1.core.read (.d 3) = 0x92A5C3F1 := by
  have hdecoded (name : String) (m : Machine Window) (os : List Operand)
      (h : (m.instruction? .v16).any (fun i => i.mnemonic = name ∧ i.operands = os) = true) :
      ∃ i, m.instruction? .v16 = some i ∧ i.mnemonic = name ∧ i.operands = os := by
    simpa only [Option.any_eq_true, decide_eq_true_eq] using h
  obtain ⟨i, hi, hname, hoperands⟩ := hdecoded "bsplit" splitAndMerge
    [.reg (.e 2), .reg (.d 2)] (by decide +kernel)
  obtain ⟨j, hj, hname', hops'⟩ := hdecoded "bmerge" (splitAndMerge.step .v16).1
    [.reg (.d 3), .reg (.d 3), .reg (.d 2)] (by decide +kernel)
  obtain ⟨pair, src, hops, -, hsplit, hmerge⟩ :=
    (bit_shuffles_invert .v16).2.2 splitAndMerge i hi hname
  obtain ⟨rfl, rfl⟩ : pair = 2 ∧ src = 2 := by simpa [hoperands, eq_comm] using hops
  obtain ⟨hdone, hrestored⟩ := hmerge .v16 _ j 3 hj hname' hops' rfl
  exact ⟨hsplit.trans (by decide +kernel), hdone, hrestored.trans (by decide)⟩

end Tricore
