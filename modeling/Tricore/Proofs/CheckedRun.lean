import Mathlib
import Tricore.Proofs.CheckedLift
import Tricore.Proofs.CheckedState

/-!
# Execution in range

Expressions, intrinsics, statements and whole steps over a window of memory, with every operation that
has a range checked. A run follows positions in its list of statements. The registers of the
statements are present, because those of a decoded instruction are.

Main statement: whatever the bytes and the state, decoding, lifting and a step have a result with all
operations checked, and it is the result without checks. The labels of the trace may not be used up.
-/

namespace Tricore

namespace Checked

/-! ## Memory access -/

theorem bytes_le_eight (w : Width) : w.bytes ≤ 8 := by cases w <;> decide

def loadValue (m : Machine Window) (addr : Address) (w : Width) : ExceptT Trap Option Value :=
  if Machine.misaligned addr w then throw (.unaligned addr)
  else ExceptT.adapt (.bus addr) (readValue m.bus addr w.bytes)

@[simp]
theorem loadValue_eq (m : Machine Window) (addr : Address) (w : Width) :
    loadValue m addr w = settled (m.load addr w) := by
  unfold loadValue Machine.load
  split
  · rfl
  · rw [readValue_eq _ _ (bytes_le_eight w)]
    rfl

/-- Store the low bytes of a value. -/
def storeValue (m : Machine Window) (addr : Address) (w : Width) (v : Value) :
    Option (Machine Window × Option Trap) :=
  if Machine.misaligned addr w then some (m, some (.unaligned addr))
  else do
    match ← (writeValue m.bus addr w.bytes (← mask w v)).run with
    | .ok bus => return ({ m with bus }, none)
    | .error fault => return (m, some (.bus addr fault))

@[simp]
theorem storeValue_eq (m : Machine Window) (addr : Address) (w : Width) (v : Value) :
    storeValue m addr w v = some (m.store addr w v) := by
  unfold storeValue Machine.store
  split
  · rfl
  · rw [mask_eq, Option.bind_eq_bind, Option.bind_some, writeValue_eq _ _ (bytes_le_eight w)]
    show _ = some (let (bus, fault?) := m.bus.attempt (m.bus.load addr (split w.bytes (w.cut v)))
      ({ m with bus }, fault?.map (Trap.bus addr)))
    cases m.bus.load addr (split w.bytes (w.cut v)) <;> rfl

/-! ## Expressions -/

mutual

def eval (m : Machine Window) : Expr → ExceptT Trap Option Value
  | .const w value => liftM <| mask w value
  | .reg r => liftM <| readRegister m.core r
  | .flag f => do return truth (← liftM <| flag m.core f)
  | .load w addr => do loadValue m ((← eval m addr).setWidth 32) w
  | .unary op w arg => do
    let v ← liftM <| unary op w (← eval m arg)
    liftM <| mask w v
  | .binary op w lhs rhs => do
    let a ← eval m lhs
    let b ← eval m rhs
    liftM <| (binary op w a b).bind (mask w)
  | .extend .signed w arg => do
    let v ← liftM <| signed arg.width (← eval m arg)
    liftM <| mask w v
  | .extend .unsigned w arg | .low w arg => do liftM <| mask w (← eval m arg)
  | .compare op w lhs rhs => do
    let a ← liftM <| mask w (← eval m lhs)
    let b ← liftM <| mask w (← eval m rhs)
    return truth (← liftM <| compare op w a b)
  | .floatStatus f op args => do
    let args ← evalList m args
    return truth (op.raises f (args.map (·.setWidth 32)))

/-- Several expressions, from left to right. -/
def evalList (m : Machine Window) : List Expr → ExceptT Trap Option (List Value)
  | [] => return []
  | e :: es => do
    let v ← eval m e
    let vs ← evalList m es
    return v :: vs

end

mutual

theorem eval_eq (m : Machine Window) : ∀ {e : Expr}, e.Readable → eval m e = settled (e.eval m)
  | .const .., _ => by simp only [eval, mask_eq]; rfl
  | .reg _, h => by simp only [eval, readRegister_eq (Expr.readable_reg.1 h)]; rfl
  | .flag _, _ => by simp only [eval, flag_eq]; rfl
  | .load _ addr, h => by
    simp only [eval, Expr.eval, eval_eq m (Expr.readable_load.1 h), loadValue_eq]
    cases addr.eval m <;> rfl
  | .unary _ _ arg, h => by
    simp only [eval, Expr.eval, eval_eq m (Expr.readable_unary.1 h), unary_eq, mask_eq]
    cases arg.eval m <;> rfl
  | .binary op w lhs rhs, h => by
    obtain ⟨hl, hr⟩ := Expr.readable_binary.1 h
    have hmask (a b : Value) :
        (binary op w a b).bind (mask w) = some (w.cut (op.apply w a b)) := by
      rw [← binary_eq, Option.map_eq_bind]
      exact congrArg _ (funext fun v => mask_eq w v)
    simp only [eval, Expr.eval, eval_eq m hl, eval_eq m hr, hmask]
    cases lhs.eval m with
    | error => rfl
    | ok => cases rhs.eval m <;> rfl
  | .extend s _ arg, h => by
    cases s <;>
      simp only [eval, Expr.eval, eval_eq m (Expr.readable_extend.1 h), signed_eq, mask_eq] <;>
      cases arg.eval m <;> rfl
  | .low _ arg, h => by
    simp only [eval, Expr.eval, eval_eq m (Expr.readable_low.1 h), mask_eq]
    cases arg.eval m <;> rfl
  | .compare _ _ lhs rhs, h => by
    obtain ⟨hl, hr⟩ := Expr.readable_compare.1 h
    simp only [eval, Expr.eval, eval_eq m hl, eval_eq m hr, mask_eq, compare_eq]
    cases lhs.eval m with
    | error => rfl
    | ok => cases rhs.eval m <;> rfl
  | .floatStatus _ _ args, h => by
    simp only [eval, Expr.eval, evalList_eq m (Expr.readable_floatStatus.1 h)]
    cases Expr.evalList m args <;> rfl

theorem evalList_eq (m : Machine Window) :
    ∀ {es : List Expr}, (∀ e ∈ es, e.Readable) → evalList m es = settled (Expr.evalList m es)
  | [], _ => rfl
  | e :: es, h => by
    simp only [evalList, Expr.evalList, eval_eq m (h e List.mem_cons_self),
      evalList_eq m fun x hx => h x (List.mem_cons_of_mem e hx)]
    cases e.eval m with
    | error => rfl
    | ok => cases Expr.evalList m es <;> rfl

end

/-! ## Intrinsics -/

/-- Store registers at consecutive words, from the word of index `i` on. -/
def storeRegisters (m : Machine Window) (addr : Address) (i : Nat) :
    List Register → Option (Machine Window × Option Trap)
  | [] => some (m, none)
  | r :: rs => do
    let v ← readRegister m.core r
    match ← storeValue m (addr + .ofNat 32 (← mul 32 4 i)) .word v with
    | (m, none) => storeRegisters m addr (i + 1) rs
    | (m, some trap) => return (m, some trap)

/-- Load registers from consecutive words, from the word of index `i` on. -/
def loadRegisters (m : Machine Window) (addr : Address) (i : Nat) :
    List Register → Option (Machine Window × Option Trap)
  | [] => some (m, none)
  | r :: rs => do
    match ← (loadValue m (addr + .ofNat 32 (← mul 32 4 i)) .word).run with
    | .ok v => loadRegisters { m with core := ← writeRegister m.core r v } addr (i + 1) rs
    | .error trap => return (m, some trap)

theorem next_word (addr : Address) (i : Nat) :
    addr + .ofNat 32 (4 * i) + 4 = addr + .ofNat 32 (4 * (i + 1)) := by
  rw [Nat.mul_add, BitVec.ofNat_add, BitVec.add_assoc]
  rfl

theorem storeRegisters_eq (m : Machine Window) (addr : Address) (i : Nat) {rs : List Register}
    (h : ∀ r ∈ rs, r.Present) (hi : i + rs.length ≤ 16) :
    storeRegisters m addr i rs = some (m.storeRegisters (addr + .ofNat 32 (4 * i)) rs) := by
  induction rs generalizing m i with
  | nil => rfl
  | cons r rs ih =>
    rw [List.length_cons] at hi
    have hmul : mul 32 4 i = some (4 * i) := mul_eq (by omega)
    simp only [storeRegisters, Machine.storeRegisters, readRegister_eq (h r List.mem_cons_self),
      hmul, storeValue_eq, Option.bind_eq_bind, Option.bind_some]
    generalize m.store _ _ _ = stored
    rcases stored with ⟨m', _ | trap⟩
    · simp only [next_word]
      exact ih m' (i + 1) (fun x hx => h x (List.mem_cons_of_mem r hx)) (by omega)
    · rfl

theorem loadRegisters_eq (m : Machine Window) (addr : Address) (i : Nat) {rs : List Register}
    (h : ∀ r ∈ rs, r.Present) (hi : i + rs.length ≤ 16) :
    loadRegisters m addr i rs = some (m.loadRegisters (addr + .ofNat 32 (4 * i)) rs) := by
  induction rs generalizing m i with
  | nil => rfl
  | cons r rs ih =>
    rw [List.length_cons] at hi
    have hmul : mul 32 4 i = some (4 * i) := mul_eq (by omega)
    simp only [loadRegisters, Machine.loadRegisters, writeRegister_eq (h r List.mem_cons_self),
      hmul, loadValue_eq, Option.bind_eq_bind, Option.bind_some]
    generalize m.load _ _ = loaded
    cases loaded with
    | error => rfl
    | ok v =>
      simp only [next_word]
      exact ih _ (i + 1) (fun x hx => h x (List.mem_cons_of_mem r hx)) (by omega)

/-- The registers of a context, in memory from `addr` on. -/
def storeContext (m : Machine Window) (addr : Address) (kind : ContextKind) :
    Option (Machine Window × Option Trap) := storeRegisters m addr 0 kind.layout.toList

def fetchContext (m : Machine Window) (addr : Address) (kind : ContextKind) :
    Option (Machine Window × Option Trap) := loadRegisters m addr 0 kind.layout.toList

theorem storeContext_eq (m : Machine Window) (addr : Address) (kind : ContextKind) :
    storeContext m addr kind = some (m.storeRegisters addr kind.layout.toList) := by
  rw [storeContext, storeRegisters_eq m addr 0 (by simpa using present_layout kind) (by simp)]
  simp

theorem fetchContext_eq (m : Machine Window) (addr : Address) (kind : ContextKind) :
    fetchContext m addr kind = some (m.loadRegisters addr kind.layout.toList) := by
  rw [fetchContext, loadRegisters_eq m addr 0 (by simpa using present_layout kind) (by simp)]
  simp

def restore (m : Machine Window) (kind : ContextKind) : Option (Machine Window × Option Trap) := do
  match ← (restoreContext m.core kind).run with
  | .ok core => return ({ m with core }, none)
  | .error trap => return (m, some trap)

theorem restore_eq (m : Machine Window) (kind : ContextKind) :
    restore m kind = some (m.restore kind) := by
  rw [restore, restoreContext_eq, Machine.restore]
  cases m.core.restoreContext kind <;> rfl

def beginService (priority : Value) (c : Core) : Option Core := do
  let c ← saveContext c .lower
  let old := (← readRegister c (.csfr Core.icr)) &&& ~~~0xFF
  let c ← writeRegister c (.csfr Core.icr) (old ||| (priority &&& 0xFF))
  setInterrupts c true

theorem beginService_eq (priority : Value) (c : Core) :
    beginService priority c = some (Machine.beginService priority c) := by
  simp [beginService, Machine.beginService, readRegister_eq present_icr,
    writeRegister_eq present_icr]

/-- Write the first output, if there is one. -/
def writeOutput (c : Core) (v : Value) : List Register → Option Core
  | [] => some c
  | r :: _ => writeRegister c r v

theorem writeOutput_eq {outputs : List Register} (h : ∀ r ∈ outputs, r.Present) (c : Core)
    (v : Value) : writeOutput c v outputs = some (outputs.head?.elim c (c.write · v)) := by
  cases outputs with
  | nil => rfl
  | cons r rs => exact writeRegister_eq (h r List.mem_cons_self) c v

/-- The machine with a new core. -/
def updated (m : Machine Window) (core : Option Core) : Option (Machine Window × Option Trap) := do
  return ({ m with core := ← core }, none)

theorem updated_eq {m : Machine Window} {core : Option Core} {f : Core → Core}
    (h : core = some (f m.core)) : updated m core = some (m.withCore f, none) := h ▸ rfl

/-- The machine with a result in the first output. -/
def written (m : Machine Window) (outputs : List Register) (v : Option Value) :
    Option (Machine Window × Option Trap) := updated m do writeOutput m.core (← v) outputs

theorem written_eq (m : Machine Window) {outputs : List Register} (h : ∀ r ∈ outputs, r.Present)
    {v : Option Value} {x : Value} (hv : v = some x) :
    written m outputs v = some (m.withCore fun c => outputs.head?.elim c (c.write · x), none) := by
  rw [written, hv]
  exact updated_eq (writeOutput_eq h m.core x)

def intrinsic (m : Machine Window) (pc : Address) (i : Intrinsic) (outputs : List Register)
    (args : List Value) : Option (Machine Window × Option Trap) :=
  let arg := fun n => args.getD n 0
  let argWord := fun n => (arg n).setWidth 32
  match i with
  | .saveUpperContext => updated m (saveContext m.core .upper)
  | .saveLowerContext => updated m (saveContext m.core .lower)
  | .restoreUpperContext => restore m .upper
  | .restoreLowerContext => restore m .lower
  | .storeUpperContext => storeContext m (argWord 0) .upper
  | .storeLowerContext => storeContext m (argWord 0) .lower
  | .loadUpperContext => fetchContext m (argWord 0) .upper
  | .loadLowerContext => fetchContext m (argWord 0) .lower
  | .bisr => updated m (beginService (arg 0) m.core)
  | .mfcr => written m outputs (readRegister m.core (.csfr ((arg 0).setWidth 16)))
  | .mtcr => written m outputs (some (arg 1))
  | .enableInterrupts => updated m (setInterrupts m.core true)
  | .disableInterrupts => updated m (setInterrupts m.core false)
  | .disableInterruptsSaving => updated m do
    writeOutput (← setInterrupts m.core false) (truth m.core.interruptsEnabled) outputs
  | .restoreInterrupts => updated m (setInterrupts m.core ((arg 0).getLsbD 0))
  | .bitReverseStep => written m outputs (some ((bitReverseStep (argWord 0)).setWidth 64))
  | .parity => written m outputs ((parity (argWord 0)).map (·.setWidth 64))
  | .bmerge => written m outputs ((bmerge (argWord 0) (argWord 1)).map (·.setWidth 64))
  | .bsplit => written m outputs (bsplit (argWord 0))
  -- The other ones have no operation with a range.
  | i => some (m.intrinsic pc i outputs args)

theorem intrinsic_eq (m : Machine Window) (pc : Address) (i : Intrinsic) {outputs : List Register}
    (h : ∀ r ∈ outputs, r.Present) (args : List Value) :
    intrinsic m pc i outputs args = some (m.intrinsic pc i outputs args) := by
  cases i with
  | restoreUpperContext | restoreLowerContext => exact restore_eq ..
  | storeUpperContext | storeLowerContext => exact storeContext_eq ..
  | loadUpperContext | loadLowerContext => exact fetchContext_eq ..
  | saveUpperContext | saveLowerContext => exact updated_eq (saveContext_eq ..)
  | bisr => exact updated_eq (beginService_eq ..)
  | enableInterrupts | disableInterrupts | restoreInterrupts =>
    exact updated_eq (setInterrupts_eq ..)
  | disableInterruptsSaving =>
    refine (updated_eq (f := fun c => outputs.head?.elim (c.setInterrupts false)
      ((c.setInterrupts false).write · (truth m.core.interruptsEnabled))) ?_).trans ?_
    · rw [setInterrupts_eq]
      exact writeOutput_eq h _ _
    · cases outputs <;> rfl
  | mfcr =>
    refine (written_eq m h (readRegister_eq (r := .csfr _) trivial m.core)).trans ?_
    cases outputs <;> rfl
  | mtcr | bitReverseStep =>
    refine (written_eq m h rfl).trans ?_
    cases outputs <;> rfl
  | parity =>
    have hparity := congrArg (Option.map (·.setWidth 64)) (parity_eq ((args.getD 0 0).setWidth 32))
    refine (written_eq m h hparity).trans ?_
    cases outputs <;> rfl
  | bmerge =>
    have hmerge := congrArg (Option.map (·.setWidth 64))
      (bmerge_eq ((args.getD 0 0).setWidth 32) ((args.getD 1 0).setWidth 32))
    refine (written_eq m h hmerge).trans ?_
    cases outputs <;> rfl
  | bsplit =>
    refine (written_eq m h (bsplit_eq ((args.getD 0 0).setWidth 32))).trans ?_
    cases outputs <;> rfl
  | _ => rfl

/-! ## Statements -/

def exec (pc : Address) (m : Machine Window) : Stmt → Option (Machine Window × Next)
  | .setReg r value => do
    match ← (eval m value).run with
    | .ok v => return ({ m with core := ← writeRegister m.core r v }, .next)
    | .error t => return (m, .trap t)
  | .setFlag f value => do
    match ← (eval m value).run with
    | .ok v => return ({ m with core := ← setFlag m.core f (v.getLsbD 0) }, .next)
    | .error t => return (m, .trap t)
  | .store w addr value => do
    match ← (eval m addr).run with
    | .error t => return (m, .trap t)
    | .ok addr =>
      match ← (eval m value).run with
      | .error t => return (m, .trap t)
      | .ok v =>
        let (m, trap?) ← storeValue m (addr.setWidth 32) w v
        return (m, .ofTrap? trap?)
  | .jump target | .call target | .ret target => do
    match ← (eval m target).run with
    | .ok v => return ({ m with core := ← writeRegister m.core .pc v }, .next)
    | .error t => return (m, .trap t)
  | .branch cond yes no => do
    match ← (eval m cond).run with
    | .ok v => return (m, .goto (if v ≠ 0 then yes else no))
    | .error t => return (m, .trap t)
  | .intrinsic i outputs inputs => do
    match ← (evalList m inputs).run with
    | .ok args =>
      let (m, trap?) ← intrinsic m pc i outputs args
      return (m, .ofTrap? trap?)
    | .error t => return (m, .trap t)
  | .goto l => some (m, .goto l)
  | .mark _ | .nop => some (m, .next)
  | .undefined => some (m, .trap (.unsupported pc "undefined behaviour"))

theorem run_settled {ε α : Type} (x : Except ε α) : (settled x).run = some x := rfl

theorem exec_eq (pc : Address) (m : Machine Window) {stmt : Stmt} (h : stmt.Present) :
    exec pc m stmt = some (stmt.exec pc m) := by
  obtain ⟨hreads, hnamed⟩ := h
  cases stmt with
  | setReg r value =>
    have hr : r.Present := hnamed r List.mem_cons_self
    simp only [exec, Stmt.exec, eval_eq m hreads, run_settled, writeRegister_eq hr]
    cases value.eval m <;> rfl
  | setFlag f value =>
    simp only [exec, Stmt.exec, eval_eq m hreads, run_settled, setFlag_eq]
    cases value.eval m <;> rfl
  | store w addr value =>
    obtain ⟨ha, hv⟩ := List.forall_mem_append.1 hreads
    simp only [exec, Stmt.exec, eval_eq m ha, eval_eq m hv, run_settled, storeValue_eq]
    cases addr.eval m with
    | error => rfl
    | ok => cases value.eval m <;> rfl
  | jump target | call target | ret target =>
    have hpc : Register.pc.Present := trivial
    simp only [exec, Stmt.exec, eval_eq m hreads, run_settled, writeRegister_eq hpc]
    cases target.eval m <;> rfl
  | branch cond yes no =>
    simp only [exec, Stmt.exec, eval_eq m hreads, run_settled]
    cases cond.eval m <;> rfl
  | intrinsic i outputs inputs =>
    have hinputs : ∀ e ∈ inputs, e.Readable := fun e he r hr =>
      hreads r (List.mem_flatMap.2 ⟨e, he, hr⟩)
    have houtputs : ∀ r ∈ outputs, r.Present := hnamed
    simp only [exec, Stmt.exec, evalList_eq m hinputs, run_settled, intrinsic_eq m pc i houtputs]
    cases Expr.evalList m inputs <;> rfl
  | _ => rfl

/-! ## Runs -/

/-- The position of the last mark of a label. -/
def markAt? (l : Label) : List Stmt → Option Nat
  | [] => none
  | stmt :: rest =>
    match markAt? l rest, stmt with
    | some i, _ => some (i + 1)
    | none, .mark l' => if l' = l then some 0 else none
    | none, _ => none

theorem fromMark?_eq (l : Label) (code : List Stmt) :
    fromMark? l code = (markAt? l code).map code.drop := by
  induction code with
  | nil => rfl
  | cons stmt rest ih =>
    unfold fromMark? markAt?
    rw [ih]
    cases markAt? l rest with
    | some i => cases stmt <;> rfl
    | none =>
      cases stmt with
      | mark l' =>
        by_cases hl : l' = l
        · simp [hl]
        · simp [hl]
      | _ => rfl

/-- Execute the statements from position `i` on; a position is at most the number of statements. -/
def run (pc : Address) (code : List Stmt) :
    Nat → Nat → Machine Window → Option (Machine Window × Outcome)
  | 0, i, m => some (m, if i < code.length then .unfinished else .done)
  | fuel + 1, i, m =>
    if i < code.length then do
      match ← exec pc m (← index code i) with
      | (m, .next) => run pc code fuel (i + 1) m
      | (m, .trap t) => return (m, .trapped t)
      | (m, .goto l) =>
        match markAt? l code with
        | some i => run pc code fuel i m
        | none => return (m, .trapped (.unsupported pc "branch to a label outside the instruction"))
    else some (m, .done)

/-- From a position on, a run executes the rest of the statements. -/
theorem run_eq (pc : Address) {code : List Stmt} (h : ∀ stmt ∈ code, stmt.Present) (fuel i : Nat)
    (m : Machine Window) : run pc code fuel i m = some (m.run pc code fuel (code.drop i)) := by
  induction fuel generalizing i m with
  | zero =>
    rw [run]
    split
    · next hi => rw [List.drop_eq_getElem_cons hi]; rfl
    · next hi => rw [List.drop_eq_nil_of_le (Nat.not_lt.1 hi)]; rfl
  | succ fuel ih =>
    rw [run]
    split
    · next hi =>
      have hexec := exec_eq pc m (h code[i] (List.getElem_mem hi))
      rw [List.drop_eq_getElem_cons hi, Machine.run, index, List.getElem?_eq_getElem hi]
      simp only [Option.bind_eq_bind, Option.bind_some, hexec, fromMark?_eq]
      rcases code[i].exec pc m with ⟨m', _ | l | t⟩
      · exact ih (i + 1) m'
      · dsimp only
        cases markAt? l code with
        | none => rfl
        | some j => exact ih j m'
      · rfl
    · next hi =>
      rw [List.drop_eq_nil_of_le (Nat.not_lt.1 hi)]
      rfl

def execute (m : Machine Window) (pc : Address) (code : List Stmt) :
    Option (Machine Window × Outcome) :=
  run pc code code.length 0 (m.withCore fun c => { c with temps := [] })

/-! ## Steps -/

/-- The bytes that can be read from `addr` on, at most `n`. -/
def readable (bus : Window) (addr : Address) : Nat → Option (List Byte)
  | 0 => some []
  | n + 1 => do
    match ← (readByte bus addr).run with
    | .ok b => return b :: (← readable bus (addr + 1) n)
    | .error _ => return []

theorem readable_eq (bus : Window) (addr : Address) (n : Nat) :
    readable bus addr n = some (Machine.readable bus addr n) := by
  induction n generalizing addr with
  | zero => rfl
  | succ n ih =>
    simp only [readable, Machine.readable, readByte_eq, run_settled, ih]
    cases Bus.readByte bus addr <;> rfl

def fetch (bus : Window) (pc : Address) : ExceptT Fault Option (List Byte) := do
  let b ← readByte bus pc
  return b :: (← liftM <| readable bus (pc + 1) 3)

theorem fetch_eq (bus : Window) (pc : Address) : fetch bus pc = settled (Machine.fetch bus pc) := by
  rw [fetch, readByte_eq, readable_eq, Machine.fetch]
  cases Bus.readByte bus pc <;> rfl

/-- Execute an instruction; the program counter changes only if the instruction changes it. -/
def perform (m : Machine Window) (i : Instruction) : Option (Machine Window × Outcome) := do
  match ← (lift i .empty).run with
  | .ok t => execute m i.addr t.stmts
  | .error _ => return (m, .trapped (.invalidInstruction i.addr))

def step (isa : Isa) (m : Machine Window) : Option (Machine Window × Outcome) := do
  let pc := m.core.pc
  match ← (fetch m.bus pc).run with
  | .error fault => return (m, .trapped (.bus pc fault))
  | .ok bytes =>
    match ← (decode isa bytes pc).run with
    | .error _ => return (m, .trapped (.invalidInstruction pc))
    | .ok i => perform (m.withCore fun c => { c with pc := i.next }) i

/-- The effects of a decoded instruction use present registers. -/
theorem stmts_present {isa : Isa} {bytes : List Byte} {addr : Address} {i : Instruction} {t : Trace}
    (h : Instruction.decode isa bytes addr = .ok i) (ht : i.lift .empty = .ok t) :
    ∀ stmt ∈ t.stmts, stmt.Present := by
  obtain ⟨e, hp, -⟩ := Instruction.plan_of_decode h
  have hfrugal : Lift.Frugal (Lift.emitting e) := hp ▸ Instruction.frugal h
  rw [Instruction.lift_of_plan hp] at ht
  cases ht
  exact hfrugal.present (.of .empty)

theorem perform_eq {isa : Isa} {bytes : List Byte} {addr : Address} {i : Instruction}
    (h : Instruction.decode isa bytes addr = .ok i) (m : Machine Window) :
    perform m i = some (m.perform i) := by
  rw [perform, lift_eq h (t := .empty) (by decide), run_settled, Machine.perform]
  cases ht : i.lift .empty with
  | error => rfl
  | ok t => exact run_eq i.addr (stmts_present h ht) t.stmts.length 0 _

/-- A step stays in range and gives what a step gives. -/
theorem step_eq (isa : Isa) (m : Machine Window) : step isa m = some (m.step isa) := by
  simp only [step, Machine.step, fetch_eq, run_settled, decode_eq]
  cases Machine.fetch m.bus m.core.pc with
  | error => rfl
  | ok bytes =>
    simp only [Option.bind_eq_bind, Option.bind_some]
    cases hd : Instruction.decode isa bytes m.core.pc with
    | error => rfl
    | ok i => exact perform_eq hd _

/-! ## Entry points -/

def probe (isa : Isa) (bytes : List Byte) (addr : Address) (max : Nat) :
    ExceptT DecodeError Option (Nat × List Edge) := do
  let seen ← liftM <| slice bytes 0 (min bytes.length max)
  let i ← decode isa seen addr
  return (i.length, i.edges)

theorem probe_eq (isa : Isa) (bytes : List Byte) (addr : Address) (max : Nat) :
    probe isa bytes addr max = settled (Tricore.probe isa bytes addr max) := by
  have hseen : slice bytes 0 (min bytes.length max) = some (bytes.take max) := by
    rw [slice_eq (Nat.zero_le _) (Nat.min_le_left ..), List.drop_zero, Nat.sub_zero, Nat.min_comm,
      List.take_eq_take_min.symm]
  rw [probe, hseen, liftM_some_bind, decode_eq]
  exact settled_bind _ fun i : Instruction => .ok (i.length, i.edges)

def render (isa : Isa) (bytes : List Byte) (addr : Address) :
    ExceptT DecodeError Option (Nat × List Token) := do
  let i ← decode isa bytes addr
  return (i.length, i.tokens)

theorem render_eq (isa : Isa) (bytes : List Byte) (addr : Address) :
    render isa bytes addr = settled (Tricore.render isa bytes addr) := by
  rw [render, decode_eq]
  exact settled_bind _ fun i : Instruction => .ok (i.length, i.tokens)

def liftBytes (isa : Isa) (bytes : List Byte) (addr : Address) (t : Trace) :
    ExceptT DecodeError Option (Nat × Trace) := do
  let i ← decode isa bytes addr
  match ← liftM (lift i t).run with
  | .ok t => return (i.length, t)
  | .error _ => throw (.unliftable addr i.mnemonic i.length)

theorem liftBytes_eq (isa : Isa) (bytes : List Byte) (addr : Address) {t : Trace}
    (ht : t.nextLabel < 2 ^ 32 - 2) :
    liftBytes isa bytes addr t = settled (Tricore.liftBytes isa bytes addr t) := by
  rw [liftBytes, decode_eq, Tricore.liftBytes]
  cases h : Instruction.decode isa bytes addr with
  | error => rfl
  | ok i =>
    simp only [settled_ok_bind, lift_eq h ht, run_settled, liftM_some_bind]
    simp only [bind, Except.bind]
    cases i.lift t <;> rfl

end Checked

open Checked (settled)

/-- No operation leaves its range: with every operation checked, looking at bytes, printing and lifting
them and executing them from any state have the result that they have without checks. -/
theorem operations_in_range (isa : Isa) (bytes : List Byte) (addr : Address) (max : Nat) (t : Trace)
    (ht : t.nextLabel < 2 ^ 32 - 2) (m : Machine Window) :
    Checked.decode isa bytes addr = settled (Instruction.decode isa bytes addr) ∧
      Checked.probe isa bytes addr max = settled (probe isa bytes addr max) ∧
      Checked.render isa bytes addr = settled (render isa bytes addr) ∧
      Checked.liftBytes isa bytes addr t = settled (liftBytes isa bytes addr t) ∧
      Checked.step isa m = some (m.step isa) :=
  ⟨Checked.decode_eq .., Checked.probe_eq .., Checked.render_eq .., Checked.liftBytes_eq isa bytes addr ht,
    Checked.step_eq isa m⟩

/-- `jz d15` takes the last two labels. -/
theorem operations_in_range_last_labels : ∃ t : Trace,
    Checked.liftBytes .v16 [0x6E, 0x04] 0x100 { nextLabel := 2 ^ 32 - 3 } = settled (.ok (2, t)) ∧
      t.nextLabel = 2 ^ 32 - 1 := by
  obtain ⟨-, -, -, hlift, -⟩ := operations_in_range .v16 [0x6E, 0x04] 0x100 4
    { nextLabel := 2 ^ 32 - 3 } (by decide) { core := {}, bus := { base := 0, size := 0 } }
  exact ⟨_, hlift.trans rfl, rfl⟩

-- With one label fewer left, the second does not exist.
example : Checked.liftBytes .v16 [0x6E, 0x04] 0x100 { nextLabel := 2 ^ 32 - 2 } = none := rfl

end Tricore
