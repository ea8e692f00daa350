import Mathlib
import Tricore.Proofs.Emission

/-!
# Executing statements

What expressions and operands evaluate to, and where a run of statements leaves the program counter
if it completes. There are three layouts of statements that move control: at the end of a straight
run (`Machine.pc_run_last`); at the end of one that keeps the destination in a temporary first, while
a link is made or a context restored (`Machine.pc_run_through`); and by a two-way branch at the end
(`Machine.pc_run_branch`). `Machine.after` takes any number of steps.
-/

namespace Tricore

/-- An address in a register, with bit 0 cleared. -/
def Core.destination (c : Core) (r : Register) : Address := (c.read r).setWidth 32 &&& ~~~1

/-- The condition holds of two words. -/
def Condition.holds (a b : Word) : Condition → Bool
  | eq => a == b
  | ne => a != b
  | lt => a.slt b
  | ltU => a.ult b
  | ge => b.sle a
  | geU => b.ule a
  | gt => b.slt a
  | le => a.sle b

/-- The value of a register or of a constant. -/
def Operand.value (c : Core) : Operand → Value
  | reg r => c.read r
  | imm v => (BitVec.ofInt 32 v).setWidth 64
  | high h => (h ++ (0 : BitVec 16)).setWidth 64
  | _ => 0

/-! ## Values -/

theorem Width.cut_word (w : Word) : Width.word.cut (w.setWidth 64) = w.setWidth 64 := by
  show ((w.setWidth 64).setWidth 32).setWidth 64 = w.setWidth 64
  simp

theorem Width.cut_double (v : Value) : Width.double.cut v = v := by
  show (v.setWidth 64).setWidth 64 = v
  simp

theorem Core.pc_eq_of_read {c c' : Core} (h : c.read .pc = c'.read .pc) : c.pc = c'.pc := by
  simpa [read, Register.canonical] using congrArg (BitVec.setWidth 32) h

section Values

variable {β : Type} [Bus β] (m : Machine β)

theorem Expr.eval_word (w : Word) : (Expr.word w).eval m = .ok (w.setWidth 64) :=
  congrArg Except.ok (Width.cut_word w)

theorem Expr.eval_aligned (r : Register) :
    ∃ v, (Expr.aligned r).eval m = .ok v ∧ v.setWidth 32 = m.core.destination r := by
  refine ⟨Width.word.cut (m.core.read r &&& (~~~1 : Word).setWidth 64), ?_, ?_⟩
  · simp only [Expr.aligned, Expr.and, Expr.eval, Expr.eval_word, bind, Except.bind]
    rfl
  · show (((m.core.read r &&& (~~~1 : Word).setWidth 64).setWidth 32).setWidth 64).setWidth 32 = _
    simp [Core.destination]

variable {m} {l r : Expr} {a b : Value}

theorem Expr.eval_compare {op : CmpOp} {w : Width} (hl : l.eval m = .ok a) (hr : r.eval m = .ok b) :
    (Expr.compare op w l r).eval m = .ok (truth (op.apply w (w.cut a) (w.cut b))) := by
  simp only [Expr.eval, hl, hr, bind, Except.bind]
  rfl

theorem truth_ne_zero {t : Bool} : truth t ≠ 0 ↔ t = true := by
  cases t <;> decide

theorem Condition.apply_op (c : Condition) :
    c.op.apply .word (Width.word.cut a) (Width.word.cut b) =
      c.holds (a.setWidth 32) (b.setWidth 32) := by
  have hs (x : Value) : Width.word.signed (Width.word.cut x) = (x.setWidth 32).toInt := by
    show (((x.setWidth 32).setWidth 64).setWidth 32).toInt = _
    simp
  have hu (x : Value) : (Width.word.cut x).toNat = (x.setWidth 32).toNat := by
    show ((x.setWidth 32).setWidth 64).toNat = _
    have := (x.setWidth 32).isLt
    rw [BitVec.toNat_setWidth _ (x.setWidth 32), Nat.mod_eq_of_lt (by omega)]
  have he : Width.word.cut a = Width.word.cut b ↔ a.setWidth 32 = b.setWidth 32 := by
    rw [← BitVec.toNat_inj, hu, hu, BitVec.toNat_inj]
  cases c <;> simp only [Condition.op, CmpOp.apply, holds, hs, BitVec.slt, BitVec.sle, BitVec.ult,
    BitVec.ule, BitVec.lt_def, BitVec.le_def, hu]
  · rw [Bool.eq_iff_iff, beq_iff_eq, beq_iff_eq, he]
  · rw [Bool.eq_iff_iff, bne_iff_ne, bne_iff_ne, Ne, he]

theorem getLsbD_truth (t : Bool) (n : Nat) : (truth t).getLsbD n = (t && decide (n = 0)) := by
  cases t <;> simp [truth, BitVec.getLsbD_one]

theorem Width.getLsbD_cut (w : Width) (v : Value) (n : Nat) :
    (w.cut v).getLsbD n = (decide (n < w.bits) && v.getLsbD n) := by
  have hw : w.bits ≤ 64 := by cases w <;> decide
  simp only [cut, BitVec.getLsbD_setWidth]
  rcases Nat.lt_or_ge n 64 with hn | hn
  · simp [hn]
  · simp [show ¬ n < w.bits by omega, show ¬ n < 64 by omega]

theorem Expr.eval_condition (c : Condition) (hl : l.eval m = .ok a) (hr : r.eval m = .ok b) :
    (Expr.compare c.op .word l r).eval m =
      .ok (truth (c.holds (a.setWidth 32) (b.setWidth 32))) := by
  rw [Expr.eval_compare hl hr, Condition.apply_op]

/-- Bit `n` of a value that fits its width. -/
theorem Expr.eval_bit {e : Expr} {n : Nat} (he : e.eval m = .ok a) (hfit : e.width.cut a = a)
    (hw : 32 ≤ e.width.bits) (hn : n < 2 ^ 32) :
    (e.bit n).eval m = .ok (truth (a.getLsbD n)) := by
  -- The bit is moved to the bottom and masked there.
  have hshifted : ∃ v, (if n = 0 then e
      else .lsr e.width e (.const e.width (.ofNat 64 n))).eval m = .ok v ∧
      v.getLsbD 0 = a.getLsbD n := by
    by_cases h0 : n = 0
    · exact ⟨a, by simpa [h0] using he, by rw [h0]⟩
    · have hcount : (e.width.cut (.ofNat 64 n)).toNat = n := by
        have hpow : 2 ^ 32 ≤ 2 ^ e.width.bits := Nat.pow_le_pow_right (by decide) hw
        simp only [Width.cut, BitVec.toNat_setWidth, BitVec.toNat_ofNat]
        have hn64 : n % 2 ^ 64 = n := Nat.mod_eq_of_lt (by omega)
        rw [hn64, Nat.mod_eq_of_lt (by omega : n < 2 ^ e.width.bits), hn64]
      rw [if_neg h0]
      refine ⟨_, by simp only [Expr.lsr, Expr.eval, he, bind, Except.bind]; rfl, ?_⟩
      simp only [BinOp.apply, hcount, hfit, Width.getLsbD_cut]
      split
      · next hle => rw [← hfit, Width.getLsbD_cut]; simp [show ¬ n < e.width.bits by omega]
      · simp [show 0 < e.width.bits by omega]
  obtain ⟨v, hv, hbit⟩ := hshifted
  simp only [Expr.bit, Expr.and, Expr.eval, hv, bind, Except.bind]
  refine congrArg Except.ok (BitVec.eq_of_getLsbD_eq fun k _ => ?_)
  simp only [BinOp.apply, Width.getLsbD_cut, BitVec.getLsbD_and, getLsbD_truth, ← hbit]
  by_cases hk : k = 0
  · simp [hk, Width.bits, Width.bytes]
  · simp [hk, BitVec.getLsbD_one]

end Values

/-! ## Runs without branches -/

namespace Stmt

/-- The next statement to run, if any, is the one that follows. -/
def straight : Stmt → Bool
  | branch _ _ _ | goto _ => false
  | _ => true

variable {β : Type} [Bus β] {m : Machine β} {pc : Address} {stmt : Stmt}

theorem exec_straight (h : stmt.straight = true) (l : Label) : (stmt.exec pc m).2 ≠ .goto l := by
  have ofTrap? (trap? : Option Trap) : Next.ofTrap? trap? ≠ .goto l := by
    cases trap? <;> simp [Next.ofTrap?]
  cases stmt with
  | branch | goto => cases h
  | setReg | setFlag | jump | call | ret => simp only [exec]; split <;> simp
  | store =>
    simp only [exec]
    split
    · simp
    · split
      · simp
      · exact ofTrap? _
  | intrinsic =>
    simp only [exec]
    split
    · exact ofTrap? _
    · simp
  | mark | nop | undefined => simp [exec]

end Stmt

theorem fromMark?_append {l : Label} {code found : List Stmt} (h : fromMark? l code = some found)
    (before : List Stmt) : fromMark? l (before ++ code) = some found := by
  induction before with
  | nil => exact h
  | cons stmt before ih => simp [fromMark?, ih]

/-! ## Operands -/

theorem Register.Ordinary.read_start {β : Type} {m : Machine β} {i : Instruction} {r : Register}
    (h : r.Ordinary) :
    (m.start i).core.read r = m.core.read r := by
  cases r with
  | d | a | e | p => rfl
  | _ => exact absurd rfl h

namespace Operand

/-- What an operand is read as. -/
def expr : Operand → Expr
  | reg r => .reg r
  | imm v => .word (.ofInt 32 v)
  | high h => .word (h ++ (0 : BitVec 16))
  | _ => .word 0

variable {β : Type} {o : Operand}

theorem eval_expr [Bus β] (m : Machine β) (i : Instruction) (ho : Role.value.takes o.shape = true) :
    o.expr.eval (m.start i) = .ok (o.value m.core) := by
  cases o with
  | reg r =>
    refine congrArg Except.ok (Register.Ordinary.read_start fun hr => ?_)
    rw [shape, hr] at ho
    cases ho
  | imm | high => exact Expr.eval_word _ _
  | _ => cases ho

/-- Operands fit the width they are read with. -/
theorem cut_value (c : Core) (ho : Role.value.takes o.shape = true) :
    o.expr.width.cut (o.value c) = o.value c ∧ 32 ≤ o.expr.width.bits := by
  cases o with
  | reg r =>
    cases r with
    | d | a => exact ⟨Width.cut_word _, show 32 ≤ Width.word.bits by decide⟩
    | e | p => exact ⟨Width.cut_double _, show 32 ≤ Width.double.bits by decide⟩
    | _ => cases ho
  | imm | high => exact ⟨Width.cut_word _, show 32 ≤ Width.word.bits by decide⟩
  | _ => cases ho

theorem takes_value (h : Role.register.takes o.shape = true) : Role.value.takes o.shape = true := by
  obtain ⟨r, rfl, hr⟩ := Role.takes_register.1 h
  cases r <;> first | rfl | exact absurd rfl hr

end Operand

namespace Lift.Source

variable {s : Source} {os : List Operand} (k : Nat) (h : s.operands = os)
include h

theorem operand_of {o : Operand} (hk : os[k]? = some o) : s.operand k = .ok o := by
  simp only [operand, h, hk]

theorem reg_of {r : Register} (hk : os[k]? = some (.reg r)) : s.reg k = .ok r := by
  rw [reg, operand_of k h hk]
  rfl

theorem count_of {v : Int} (hk : os[k]? = some (.imm v)) :
    s.count k = .ok (BitVec.ofInt 32 v).toNat := by
  rw [count, imm, operand_of k h hk]
  rfl

theorem target_of {t : Address} (hk : os[k]? = some (.target t)) : s.target k = .ok t := by
  rw [target, operand_of k h hk]
  rfl

theorem csfr_of {offset : BitVec 16} (hk : os[k]? = some (.csfr offset)) :
    s.csfr k = .ok offset := by
  rw [csfr, operand_of k h hk]
  rfl

theorem value_of {o : Operand} (hk : os[k]? = some o) (ho : Role.value.takes o.shape = true) :
    s.value k = .ok o.expr := by
  rw [value, operand_of k h hk]
  cases o with
  | reg | imm | high => rfl
  | _ => cases ho

end Lift.Source

namespace Machine

variable {β : Type} [Bus β] {m : Machine β} {pc : Address} {code : List Stmt}

/-- A run that completes does not stop at a straight statement. -/
theorem run_cons {stmt : Stmt} {rest : List Stmt} {fuel : Nat} (hs : stmt.straight = true)
    (h : (m.run pc code (fuel + 1) (stmt :: rest)).2 = .done) :
    m.run pc code (fuel + 1) (stmt :: rest) = (stmt.exec pc m).1.run pc code fuel rest := by
  have hgoto : ∀ l, (stmt.exec pc m).2 ≠ .goto l := Stmt.exec_straight hs
  rw [run] at h ⊢
  split at h
  · next he => simp [he]
  · cases h
  · next he => exact absurd (congrArg Prod.snd he) (hgoto _)

/-- A run that completes has run its straight beginning, which keeps what each of its statements
keeps. -/
theorem run_append_keeps {before after : List Stmt} {fuel : Nat}
    (hs : ∀ stmt ∈ before, stmt.straight = true)
    (h : (m.run pc code (before.length + fuel) (before ++ after)).2 = .done) :
    ∃ m' : Machine β,
      m.run pc code (before.length + fuel) (before ++ after) = m'.run pc code fuel after ∧
      ∀ P : Machine β → Prop, (∀ stmt ∈ before, ∀ m, P m → P (stmt.exec pc m).1) → P m → P m' := by
  induction before generalizing m with
  | nil => exact ⟨m, by simp, fun _ _ hm => hm⟩
  | cons stmt before ih =>
    have hfuel : (stmt :: before).length + fuel = before.length + fuel + 1 := by
      simp only [List.length_cons]; omega
    rw [hfuel, List.cons_append] at h ⊢
    have hstep := run_cons (hs stmt (by simp)) h
    rw [hstep] at h ⊢
    obtain ⟨m', hrun, hkeep⟩ := ih (fun s hmem => hs s (by simp [hmem])) h
    refine ⟨m', hrun, fun P hP hm => ?_⟩
    exact hkeep P (fun s hmem => hP s (by simp [hmem])) (hP stmt (by simp) m hm)

/-- A run that completes has run its straight beginning, which changes what it writes. -/
theorem run_append {before after : List Stmt} {fuel : Nat}
    (hs : ∀ stmt ∈ before, stmt.straight = true)
    (h : (m.run pc code (before.length + fuel) (before ++ after)).2 = .done) :
    ∃ m' : Machine β,
      m.run pc code (before.length + fuel) (before ++ after) = m'.run pc code fuel after ∧
      ∀ x : Register, x.IsCell → x ≠ .csfr Core.icr → (∀ stmt ∈ before, x ∉ stmt.written) →
        m'.core.read x = m.core.read x := by
  obtain ⟨m', hrun, hkeep⟩ := run_append_keeps hs h
  refine ⟨m', hrun, fun x hx hicr hw => ?_⟩
  exact hkeep (fun m' => m'.core.read x = m.core.read x)
    (fun stmt hmem _ hm => (Stmt.read_exec hx hicr (hw stmt hmem)).trans hm) rfl

theorem pc_write (c : Core) (v : Value) : (c.write .pc v).pc = v.setWidth 32 := rfl

/-- The last statement of a straight run moves control to a constant. -/
theorem pc_run_last {before : List Stmt} {last : Stmt} {v : Value}
    (hs : ∀ stmt ∈ before, stmt.straight = true)
    (hlast : ∀ m' : Machine β, last.exec pc m' = (m'.withCore (·.write .pc v), .next))
    (h : (m.run pc code (before.length + 1) (before ++ [last])).2 = .done) :
    (m.run pc code (before.length + 1) (before ++ [last])).1.core.pc = v.setWidth 32 := by
  obtain ⟨m', hrun, -⟩ := run_append hs h
  rw [hrun, run, hlast]
  rfl

/-- The destination is kept in a temporary until the last statement of a straight run moves control
there; nothing in between writes the temporary. -/
theorem pc_run_through {e : Expr} {v : Value} {between : List Stmt} {last : Stmt}
    (he : e.eval m = .ok v) (hs : ∀ stmt ∈ between, stmt.straight = true)
    (hw : ∀ stmt ∈ between, .temp 0 ∉ stmt.written)
    (hlast : ∀ m' : Machine β,
      last.exec pc m' = (m'.withCore (·.write .pc (m'.core.read (.temp 0))), .next))
    (h : (m.run pc code (between.length + 1 + 1)
      (.setReg (.temp 0) e :: (between ++ [last]))).2 = .done) :
    (m.run pc code (between.length + 1 + 1)
      (.setReg (.temp 0) e :: (between ++ [last]))).1.core.pc = v.setWidth 32 := by
  have hfirst : m.run pc code (between.length + 1 + 1) (.setReg (.temp 0) e :: (between ++ [last])) =
      (m.withCore (·.write (.temp 0) v)).run pc code (between.length + 1) (between ++ [last]) := by
    rw [run]
    simp only [Stmt.exec, he]
  rw [hfirst] at h ⊢
  obtain ⟨m', hrun, hkeep⟩ := run_append hs h
  rw [hrun, run, hlast]
  show (m'.core.read (.temp 0)).setWidth 32 = _
  rw [hkeep (.temp 0) trivial (by simp) hw]
  simp [withCore, Core.write, Core.read, Register.canonical]

/-- The end of a two-way branch: the code of the taken side, then the mark of the other. -/
def branchTail (cond : Expr) (target : Address) : List Stmt :=
  [.branch cond ⟨0⟩ ⟨1⟩, .mark ⟨0⟩, .jump (.word target), .mark ⟨1⟩]

/-- A two-way branch at the end of the code. -/
theorem pc_run_branch {before : List Stmt} {cond : Expr} {target : Address}
    (hcode : code = before ++ branchTail cond target)
    (h : (m.run pc code 4 (branchTail cond target)).2 = .done) :
    ∃ v, cond.eval m = .ok v ∧ (m.run pc code 4 (branchTail cond target)).1.core.pc =
      if v ≠ 0 then target else m.core.pc := by
  have htaken : fromMark? ⟨0⟩ code = some [.mark ⟨0⟩, .jump (.word target), .mark ⟨1⟩] :=
    hcode ▸ fromMark?_append rfl before
  have hfall : fromMark? ⟨1⟩ code = some [.mark ⟨1⟩] := hcode ▸ fromMark?_append rfl before
  cases hc : cond.eval m with
  | error trap => simp [branchTail, run, Stmt.exec, hc] at h
  | ok v =>
    refine ⟨v, rfl, ?_⟩
    by_cases hv : v = 0#64
    · simp [branchTail, run, Stmt.exec, hc, hv, hfall]
    · simp [branchTail, run, Stmt.exec, hc, hv, htaken, Expr.eval_word, withCore, pc_write]

/-- A two-way branch on a test that is kept in a temporary while its register is stepped. -/
theorem pc_run_branch_kept {before : List Stmt} {r : Register} {test x : Expr} {target : Address}
    {b : Bool} (hcode : code = before ++ branchTail (Lift.isSet (.reg (.temp 0))) target)
    (hr : r.Ordinary) (hv : test.eval m = .ok (truth b))
    (h : (m.run pc code (4 + 1 + 1) (.setReg (.temp 0) (.zext .word test) :: .setReg r x ::
      branchTail (Lift.isSet (.reg (.temp 0))) target)).2 = .done) :
    (m.run pc code (4 + 1 + 1) (.setReg (.temp 0) (.zext .word test) :: .setReg r x ::
      branchTail (Lift.isSet (.reg (.temp 0))) target)).1.core.pc =
        if b then target else m.core.pc := by
  have htest : (Expr.zext .word test).eval m = .ok (truth b) := by
    simp only [Expr.zext, Expr.eval, hv, bind, Except.bind]
    cases b <;> rfl
  have hfirst := run_cons rfl h
  rw [hfirst] at h ⊢
  simp only [Stmt.exec, htest] at h ⊢
  have hsecond := run_cons rfl h
  rw [hsecond] at h ⊢
  obtain ⟨v, hset, hpc⟩ := pc_run_branch hcode h
  -- Stepping the register changes neither the test nor where to fall through to.
  generalize hm₁ : m.withCore (·.write (.temp 0) (truth b)) = m₁ at hset hpc ⊢
  have htemp : ((Stmt.setReg r x).exec pc m₁).1.core.read (.temp 0) = m₁.core.read (.temp 0) :=
    Stmt.read_exec trivial (by simp) fun hmem => hr.of_mem_cells hmem rfl
  have hfall : ((Stmt.setReg r x).exec pc m₁).1.core.read .pc = m₁.core.read .pc :=
    Stmt.read_exec trivial (by simp) hr.pc_not_mem
  generalize ((Stmt.setReg r x).exec pc m₁).1 = m₂ at hset hpc htemp hfall ⊢
  subst hm₁
  have hreg : (Expr.reg (.temp 0)).eval m₂ = .ok (truth b) := by
    refine congrArg Except.ok (htemp.trans ?_)
    cases b <;> rfl
  have hisSet : (Lift.isSet (.reg (.temp 0))).eval m₂ = .ok (truth b) := by
    refine (Expr.eval_compare hreg rfl).trans ?_
    cases b <;> rfl
  obtain rfl : truth b = v := by simpa [hisSet] using hset
  have hpc₂ : m₂.core.pc = m.core.pc := Core.pc_eq_of_read hfall
  rw [hpc, hpc₂]
  simp only [truth_ne_zero]

end Machine

/-! ## Steps -/

namespace Machine

variable {β : Type} [Bus β] {isa : Isa} {m : Machine β}

/-- The instruction at the program counter, if there is one. -/
def instruction? (isa : Isa) (m : Machine β) : Option Instruction :=
  match fetch m.bus m.core.pc with
  | .ok bytes => (Instruction.decode isa bytes m.core.pc).toOption
  | .error _ => none

theorem instruction?_eq_some {i : Instruction} : m.instruction? isa = some i ↔
    ∃ bytes, fetch m.bus m.core.pc = .ok bytes ∧
      Instruction.decode isa bytes m.core.pc = .ok i := by
  unfold instruction?
  cases hf : fetch m.bus m.core.pc with
  | error fault => simp
  | ok bytes => cases hd : Instruction.decode isa bytes m.core.pc <;> simp [hd, Except.toOption]

/-- Without an instruction nothing changes. -/
theorem step_of_instruction?_eq_none (h : m.instruction? isa = none) : (m.step isa).1 = m := by
  unfold instruction? at h
  cases hf : fetch m.bus m.core.pc with
  | error fault => simp only [step, hf]
  | ok bytes =>
    cases hd : Instruction.decode isa bytes m.core.pc with
    | error e => simp only [step, hf, hd]
    | ok i => simp [hf, hd, Except.toOption] at h

/-- The machine after `n` steps, whether they complete or trap. -/
def after (isa : Isa) (m : Machine β) : Nat → Machine β
  | 0 => m
  | n + 1 => ((m.after isa n).step isa).1

/-- What the steps of all instructions that are executed keep, any number of steps keeps. -/
theorem after_keeps {P : Machine β → Prop} {n : Nat}
    (hstep : ∀ k < n, ∀ i, (m.after isa k).instruction? isa = some i → P (m.after isa k) →
      P (m.after isa (k + 1)))
    (h : P m) : ∀ k ≤ n, P (m.after isa k) := by
  intro k hk
  induction k with
  | zero => exact h
  | succ k ih =>
    have hprev := ih (by omega)
    cases hi : (m.after isa k).instruction? isa with
    | none => rwa [after, step_of_instruction?_eq_none hi]
    | some i => exact hstep k (by omega) i hi hprev

end Machine

namespace Lift

/-- The statements of an emission that nothing came before. -/
def code (e : Emit Unit) : List Stmt := (e { temps := 0, labels := 0, labelAt? := fun _ => none }).2.1

end Lift

namespace Machine

open Lift (code)

variable {β : Type} [Bus β] {isa : Isa} {m : Machine β} {bytes : List Byte} {i : Instruction}
  {e : Lift.Emit Unit} (hf : fetch m.bus m.core.pc = .ok bytes)
  (hd : Instruction.decode isa bytes m.core.pc = .ok i) (hp : i.plan = Lift.emitting e)
include hf hd hp

omit hf hd hp in
theorem decoded_of_done (h : (m.step isa).2 = .done) :
    ∃ bytes i, fetch m.bus m.core.pc = .ok bytes ∧
      Instruction.decode isa bytes m.core.pc = .ok i := by
  simp only [step] at h
  split at h
  · cases h
  · next bytes hf =>
    split at h
    · cases h
    · next i hd => exact ⟨bytes, i, hf, hd⟩

theorem step_of_plan :
    m.step isa = (m.start i).run i.addr (code e) (code e).length (code e) := by
  have hl : ∃ t, i.lift .empty = .ok t ∧ t.stmts = code e := by
    simp only [Instruction.lift, Instruction.liftInto, hp]
    exact ⟨_, rfl, rfl⟩
  obtain ⟨t, hl, ht⟩ := hl
  rw [step_eq hf hd hl, ht]

variable (hdone : (m.step isa).2 = .done)
include hdone

theorem pc_step_last {before : List Stmt} {last : Stmt} {t : Address}
    (hcode : code e = before ++ [last]) (hs : ∀ stmt ∈ before, stmt.straight = true)
    (hlast : ∀ m' : Machine β,
      last.exec i.addr m' = (m'.withCore (·.write .pc (t.setWidth 64)), .next)) :
    (m.step isa).1.core.pc = t := by
  have hrun := step_of_plan hf hd hp
  rw [hcode, List.length_append] at hrun
  rw [hrun] at hdone ⊢
  rw [List.length_singleton] at hdone ⊢
  rw [pc_run_last hs hlast hdone]
  simp

theorem pc_step_through {r : Register} {between : List Stmt} {last : Stmt} (hr : r.Ordinary)
    (hcode : code e = .setReg (.temp 0) (.aligned r) :: (between ++ [last]))
    (hs : ∀ stmt ∈ between, stmt.straight = true)
    (hw : ∀ stmt ∈ between, .temp 0 ∉ stmt.written)
    (hlast : ∀ m' : Machine β,
      last.exec i.addr m' = (m'.withCore (·.write .pc (m'.core.read (.temp 0))), .next)) :
    (m.step isa).1.core.pc = m.core.destination r := by
  have hrun := step_of_plan hf hd hp
  rw [hcode, List.length_cons, List.length_append, List.length_singleton] at hrun
  rw [hrun] at hdone ⊢
  obtain ⟨v, hv, hdest⟩ := Expr.eval_aligned (m.start i) r
  rw [pc_run_through hv hs hw hlast hdone, hdest, Core.destination, Core.destination,
    hr.read_start]

theorem pc_step_branch {cond : Expr} {t : Address} {b : Bool}
    (hcode : code e = branchTail cond t) (hv : cond.eval (m.start i) = .ok (truth b)) :
    (m.step isa).1.core.pc = if b then t else i.next := by
  rw [step_of_plan hf hd hp, hcode] at hdone ⊢
  obtain ⟨v, hv', hpc⟩ :=
    pc_run_branch (show branchTail cond t = [] ++ branchTail cond t from rfl) hdone
  obtain rfl : truth b = v := by simpa [hv] using hv'
  refine hpc.trans ?_
  simp only [truth_ne_zero]
  rfl

/-- The test is kept in a temporary while its register is stepped. -/
theorem pc_step_branch_kept {r : Register} {test x : Expr} {t : Address} {b : Bool}
    (hcode : code e = .setReg (.temp 0) (.zext .word test) :: .setReg r x ::
      branchTail (Lift.isSet (.reg (.temp 0))) t) (hr : r.Ordinary)
    (hv : test.eval (m.start i) = .ok (truth b)) :
    (m.step isa).1.core.pc = if b then t else i.next := by
  rw [step_of_plan hf hd hp, hcode] at hdone ⊢
  let kept : List Stmt := [.setReg (.temp 0) (.zext .word test), .setReg r x]
  exact pc_run_branch_kept (show _ = kept ++ branchTail _ t from rfl) hr hv hdone

end Machine

end Tricore
