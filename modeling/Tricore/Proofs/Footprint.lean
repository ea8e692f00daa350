import Mathlib
import Tricore.Exec.Step

/-!
# Footprints

What executing statements can change. A *cell* is a register that is stored on its own: one of the
sixteen data and address registers, the core state, a special function register that is no view, or
a temporary. `Register.cells` are the cells behind a register and `Stmt.written` the cells that a
statement may change. Executing a statement leaves all other cells as they are (`Stmt.read_exec`),
status bits other than that of its flag (`Stmt.psw_exec`), and memory if it stores nothing
(`Stmt.bus_exec`); `Machine.run_keeps` carries such facts from one statement to a run.

The interrupt control register is left out: interrupts are switched without naming it.
-/

namespace Tricore

/-! ## Cells -/

namespace Register

/-- The register is stored on its own. -/
def IsCell : Register → Prop
  | .d n | .a n => n < 16
  | .e _ | .p _ => False
  | .csfr offset => viewed? offset = none
  | _ => True

/-- The cells behind a register: both halves of a pair, and what a special function register views.
The file holds sixteen registers of a kind and takes their numbers modulo 16. -/
def cells (r : Register) : List Register :=
  match r.canonical with
  | .d n => [.d (n % 16)]
  | .a n => [.a (n % 16)]
  | .e n => [.d (n % 16), .d ((n + 1) % 16)]
  | .p n => [.a (n % 16), .a ((n + 1) % 16)]
  | r => [r]

theorem viewed?_canonical {offset : BitVec 16} {r : Register} (h : viewed? offset = some r) :
    r.canonical = r := by
  simp only [viewed?] at h
  split_ifs at h <;> cases h <;> rfl

theorem canonical_canonical (r : Register) : r.canonical.canonical = r.canonical := by
  cases r with
  | csfr offset =>
    cases hv : viewed? offset with
    | none => simp [canonical, hv]
    | some r =>
      have : (csfr offset).canonical = r := by simp [canonical, hv]
      rw [this, viewed?_canonical hv]
  | _ => rfl

theorem canonical_of_isCell {r : Register} (h : r.IsCell) : r.canonical = r := by
  cases r with
  | csfr offset => simp_all [IsCell, canonical]
  | _ => rfl

theorem cells_of_isCell {r : Register} (h : r.IsCell) : r.cells = [r] := by
  rw [cells, canonical_of_isCell h]
  cases r <;> simp_all [IsCell]

end Register

namespace CsfrFile

theorem get_set {file : CsfrFile} {offset other : BitVec 16} {v : Word} (h : other ≠ offset) :
    (file.set offset v).get other = file.get other := by
  have hb : (other == offset) = false := beq_eq_false_iff_ne.2 h
  fun_induction CsfrFile.set file offset v with
  | case1 | case2 | case3 => simp [get, List.lookup_cons, hb]
  | case4 first old rest offset value _ _ ih =>
    simp only [get, List.lookup_cons] at ih ⊢
    cases other == first
    · exact ih h hb
    · rfl

end CsfrFile

namespace Core

variable {c : Core} {x : Register}

theorem read_setD {n : Nat} {v : Word} (hx : x.IsCell) (h : x ≠ .d (n % 16)) :
    (c.setD n v).read x = c.read x := by
  cases x with
  | d m =>
    have hm : m < 16 := hx
    have hne : n % 16 ≠ m := fun e => h (by rw [e])
    simp [read, Register.canonical, setD, Vector.get_eq_getElem, Nat.mod_eq_of_lt hm,
      Vector.getElem_set_ne _ _ hne]
  | csfr offset => simp only [read, Register.canonical_of_isCell hx]; rfl
  | e | p => exact hx.elim
  | _ => rfl

theorem read_setA {n : Nat} {v : Word} (hx : x.IsCell) (h : x ≠ .a (n % 16)) :
    (c.setA n v).read x = c.read x := by
  cases x with
  | a m =>
    have hm : m < 16 := hx
    have hne : n % 16 ≠ m := fun e => h (by rw [e])
    simp [read, Register.canonical, setA, Vector.get_eq_getElem, Nat.mod_eq_of_lt hm,
      Vector.getElem_set_ne _ _ hne]
  | csfr offset => simp only [read, Register.canonical_of_isCell hx]; rfl
  | e | p => exact hx.elim
  | _ => rfl

/-- A write changes the cells of its register only. -/
theorem read_write {r : Register} {v : Value} (hx : x.IsCell) (h : x ∉ r.cells) :
    (c.write r v).read x = c.read x := by
  unfold Register.cells at h
  unfold write
  generalize r.canonical = r at h ⊢
  cases r with
  | d n => exact read_setD hx (by simpa using h)
  | a n => exact read_setA hx (by simpa using h)
  | e n =>
    simp only [List.mem_cons, List.not_mem_nil, or_false, not_or] at h
    rw [read_setD hx h.2, read_setD hx h.1]
  | p n =>
    simp only [List.mem_cons, List.not_mem_nil, or_false, not_or] at h
    rw [read_setA hx h.2, read_setA hx h.1]
  | csfr offset =>
    cases x with
    | csfr other =>
      simp only [read, Register.canonical_of_isCell hx]
      rw [CsfrFile.get_set fun e => h (by simp [e])]
    | e | p => exact hx.elim
    | _ => rfl
  | temp n | tempWide n =>
    cases x with
    | temp | tempWide =>
      simp only [read, Register.canonical, List.lookup_cons]
      rw [beq_eq_false_iff_ne.2 fun e => h (List.mem_singleton.2 e)]
    | csfr => simp only [read, Register.canonical_of_isCell hx]
    | e | p => exact hx.elim
    | _ => rfl
  | psw | pc | pcxi =>
    cases x with
    | csfr => simp only [read, Register.canonical_of_isCell hx]
    | psw | pc | pcxi => first | rfl | exact absurd (List.mem_singleton.2 rfl) h
    | e | p => exact hx.elim
    | _ => rfl

theorem read_setInterrupts {on : Bool} (hx : x.IsCell) (h : x ≠ .csfr icr) :
    (c.setInterrupts on).read x = c.read x :=
  read_write hx (by simpa [Register.cells_of_isCell (show (Register.csfr icr).IsCell from rfl)])

theorem read_saveContext {kind : ContextKind} (hx : x.IsCell) (h : x ≠ .pcxi) :
    (c.saveContext kind).read x = c.read x := by
  cases x with
  | pcxi => exact absurd rfl h
  | csfr => simp only [read, Register.canonical_of_isCell hx, saveContext]
  | _ => rfl

theorem read_foldl_write {words : List (Register × Word)} (hx : x.IsCell)
    (h : ∀ w ∈ words, x ∉ w.1.cells) :
    (words.foldl (fun c (r, w) => c.write r (w.setWidth 64)) c).read x = c.read x := by
  induction words generalizing c with
  | nil => rfl
  | cons w words ih =>
    rw [List.foldl_cons, ih fun w' hw => h w' (by simp [hw]), read_write hx (h w (by simp))]

theorem layout_isCell (kind : ContextKind) : ∀ r ∈ kind.layout.toList, r.cells = [r] := by
  cases kind <;> decide

theorem not_mem_cells_of_layout {kind : ContextKind} (h : x ∉ kind.layout.toList) :
    ∀ r ∈ kind.layout.toList, x ∉ r.cells := by
  intro r hr
  rw [layout_isCell kind r hr, List.mem_singleton]
  exact fun e => h (e ▸ hr)

theorem read_loadContext {kind : ContextKind} {words : Vector Word 16} (hx : x.IsCell)
    (h : x ∉ kind.layout.toList) : (c.loadContext kind words).read x = c.read x := by
  unfold loadContext
  rw [← Vector.foldl_toList, Vector.toList_zip]
  exact read_foldl_write hx fun w hw =>
    not_mem_cells_of_layout h w.1 (List.of_mem_zip hw).1

end Core

namespace Intrinsic

/-- What an intrinsic writes whatever outputs it is given. -/
def implied : Intrinsic → List Register
  | saveUpperContext | saveLowerContext | bisr => [.pcxi]
  | restoreUpperContext | loadUpperContext => ContextKind.upper.layout.toList
  | restoreLowerContext | loadLowerContext => ContextKind.lower.layout.toList
  | _ => []

end Intrinsic

namespace Machine

variable {β : Type} {m : Machine β} {x : Register}

theorem read_restore {kind : ContextKind} (hx : x.IsCell) (h : x ∉ kind.layout.toList) :
    (m.restore kind).1.core.read x = m.core.read x := by
  unfold restore Core.restoreContext
  cases m.core.frames with
  | nil => rfl
  | cons frame frames =>
    refine (Core.read_loadContext hx h).trans ?_
    cases x with
    | csfr => simp only [Core.read, Register.canonical_of_isCell hx]
    | _ => rfl

theorem bus_restore {kind : ContextKind} : (m.restore kind).1.bus = m.bus := by
  unfold restore
  split <;> rfl

variable [Bus β]

theorem core_store {addr : Address} {w : Width} {v : Value} : (m.store addr w v).1.core = m.core := by
  unfold store
  split <;> rfl

theorem core_storeRegisters {addr : Address} {rs : List Register} :
    (m.storeRegisters addr rs).1.core = m.core := by
  fun_induction storeRegisters m addr rs with
  | case1 => rfl
  | case2 m addr r rs m' h ih => rw [ih, ← core_store (m := m), h]
  | case3 m addr r rs m' trap h => rw [← core_store (m := m), h]

theorem read_loadRegisters {addr : Address} {rs : List Register} (hx : x.IsCell)
    (h : ∀ r ∈ rs, x ∉ r.cells) : (m.loadRegisters addr rs).1.core.read x = m.core.read x := by
  fun_induction loadRegisters m addr rs with
  | case1 => rfl
  | case2 m addr r rs v hv ih =>
    rw [ih fun r' hr => h r' (by simp [hr])]
    exact Core.read_write hx (h r (by simp))
  | case3 => rfl

theorem bus_loadRegisters {addr : Address} {rs : List Register} :
    (m.loadRegisters addr rs).1.bus = m.bus := by
  fun_induction loadRegisters m addr rs with
  | case1 | case3 => rfl
  | case2 m addr r rs v hv ih => exact ih

theorem read_intrinsic {pc : Address} {i : Intrinsic} {outputs : List Register}
    {args : List Value} (hx : x.IsCell) (hicr : x ≠ .csfr Core.icr) (hi : x ∉ i.implied)
    (ho : ∀ r ∈ outputs, x ∉ r.cells) :
    (m.intrinsic pc i outputs args).1.core.read x = m.core.read x := by
  cases i with
  | saveUpperContext | saveLowerContext =>
    exact Core.read_saveContext hx (by simpa [Intrinsic.implied] using hi)
  | restoreUpperContext | restoreLowerContext => exact read_restore hx hi
  | storeUpperContext | storeLowerContext =>
    exact congrArg (Core.read · x) core_storeRegisters
  | loadUpperContext | loadLowerContext =>
    exact read_loadRegisters hx (Core.not_mem_cells_of_layout hi)
  | bisr =>
    have hp : x ≠ .pcxi := by simpa [Intrinsic.implied] using hi
    refine (Core.read_setInterrupts hx hicr).trans ?_
    refine (Core.read_write hx ?_).trans (Core.read_saveContext hx hp)
    simpa [Register.cells_of_isCell (show (Register.csfr Core.icr).IsCell from rfl)]
  | mfcr | mtcr | bitReverseStep | parity | bmerge | bsplit =>
    -- The result goes to the first output.
    cases outputs with
    | nil => rfl
    | cons r rs => exact Core.read_write hx (ho r (by simp))
  | enableInterrupts | disableInterrupts | restoreInterrupts =>
    exact Core.read_setInterrupts hx hicr
  | disableInterruptsSaving =>
    cases outputs with
    | nil => exact Core.read_setInterrupts hx hicr
    | cons r rs =>
      exact (Core.read_write hx (ho r (by simp))).trans (Core.read_setInterrupts hx hicr)
  | _ => rfl

end Machine

/-! ## Statements -/

namespace Stmt

/-- The cells that executing a statement may change. -/
def written : Stmt → List Register
  | setReg r _ => r.cells
  | setFlag _ _ => [.psw]
  | jump _ | call _ | ret _ => [.pc]
  | intrinsic i outputs _ => i.implied ++ outputs.flatMap Register.cells
  | _ => []

/-- The statement may change memory. -/
def stores : Stmt → Bool
  | store _ _ _ | intrinsic .storeLowerContext _ _ | intrinsic .storeUpperContext _ _ => true
  | _ => false

/-- The flag that a statement writes. -/
def flag? : Stmt → Option Flag
  | setFlag f _ => some f
  | _ => none

end Stmt

theorem Machine.bus_intrinsic {β : Type} [Bus β] {m : Machine β} {pc : Address} {i : Intrinsic}
    {outputs : List Register} {inputs : List Expr} {args : List Value}
    (h : (Stmt.intrinsic i outputs inputs).stores = false) :
    (m.intrinsic pc i outputs args).1.bus = m.bus := by
  cases i with
  | restoreUpperContext | restoreLowerContext => exact bus_restore
  | storeUpperContext | storeLowerContext => cases h
  | loadUpperContext | loadLowerContext => exact bus_loadRegisters
  | _ => rfl

namespace Stmt

variable {β : Type} [Bus β] {m : Machine β} {pc : Address} {stmt : Stmt} {x : Register}

/-- Executing a statement leaves the cells it does not write as they are. -/
theorem read_exec (hx : x.IsCell) (hicr : x ≠ .csfr Core.icr) (h : x ∉ stmt.written) :
    (stmt.exec pc m).1.core.read x = m.core.read x := by
  cases stmt with
  | setReg r value =>
    simp only [exec]
    cases value.eval m with
    | ok v => exact Core.read_write hx h
    | error => rfl
  | setFlag f value =>
    simp only [exec]
    cases value.eval m with
    | ok v =>
      cases x with
      | psw => simp [written] at h
      | csfr => simp only [Core.read, Register.canonical_of_isCell hx]; rfl
      | e | p => exact hx.elim
      | _ => rfl
    | error => rfl
  | store w addr value =>
    simp only [exec]
    cases addr.eval m with
    | ok addr =>
      cases value.eval m with
      | ok v => exact congrArg (Core.read · x) Machine.core_store
      | error => rfl
    | error => rfl
  | jump target | call target | ret target =>
    simp only [exec]
    cases target.eval m with
    | ok v => exact Core.read_write hx h
    | error => rfl
  | branch cond yes no =>
    simp only [exec]
    cases cond.eval m <;> rfl
  | intrinsic i outputs inputs =>
    simp only [written, List.mem_append, List.mem_flatMap, not_or, not_exists, not_and] at h
    simp only [exec]
    cases Expr.evalList m inputs with
    | ok args => exact Machine.read_intrinsic hx hicr h.1 h.2
    | error => rfl
  | goto | mark | nop | undefined => rfl

/-- A status bit changes only with its flag or the whole status word. -/
theorem psw_exec {k : Nat} (hf : ∀ f, stmt.flag? = some f → f.bit ≠ k)
    (h : stmt.flag? = none → .psw ∉ stmt.written) :
    (stmt.exec pc m).1.core.psw.getLsbD k = m.core.psw.getLsbD k := by
  cases hs : stmt.flag? with
  | none =>
    -- The status word is a cell like any other.
    have hr : (stmt.exec pc m).1.core.read .psw = m.core.read .psw :=
      read_exec trivial (by simp) (h hs)
    have hw : (stmt.exec pc m).1.core.psw = m.core.psw := by
      simpa [Core.read, Register.canonical] using congrArg (BitVec.setWidth 32) hr
    rw [hw]
  | some f =>
    cases stmt <;> simp only [flag?, Option.some.injEq, reduceCtorEq] at hs
    subst hs
    have hk := hf _ rfl
    simp only [exec]
    split
    · simp only [Machine.withCore, Core.setFlag]
      split
      · simp [BitVec.getLsbD_twoPow, hk]
      · simpa [BitVec.getLsbD_twoPow, hk] using BitVec.lt_of_getLsbD
    · rfl

/-- Only stores change memory. -/
theorem bus_exec (h : stmt.stores = false) : (stmt.exec pc m).1.bus = m.bus := by
  cases stmt with
  | setReg | setFlag | jump | call | ret | branch => simp only [exec]; split <;> rfl
  | store => cases h
  | intrinsic i outputs inputs =>
    simp only [exec]
    split
    · exact Machine.bus_intrinsic h
    · rfl
  | goto | mark | nop | undefined => rfl

end Stmt

/-! ## Runs -/

theorem fromMark?_suffix {l : Label} {code rest : List Stmt} (h : fromMark? l code = some rest) :
    rest <:+ code := by
  fun_induction fromMark? l code with
  | case1 => cases h
  | case2 stmt code found hfound ih =>
    cases h
    exact (ih hfound).trans (List.suffix_cons stmt code)
  | case3 => cases h; exact List.suffix_rfl
  | case4 | case5 => cases h

namespace Machine

variable {β : Type}

/-- The machine that the statements of an instruction start from. -/
def start (m : Machine β) (i : Instruction) : Machine β :=
  m.withCore fun c => { c with pc := i.next, temps := [] }

theorem read_start {m : Machine β} {i : Instruction} {x : Register} (hx : x.IsCell)
    (hp : x ≠ .pc) (ht : ∀ n, x ≠ .temp n ∧ x ≠ .tempWide n) :
    (m.start i).core.read x = m.core.read x := by
  cases x with
  | pc => exact absurd rfl hp
  | temp n => exact absurd rfl (ht n).1
  | tempWide n => exact absurd rfl (ht n).2
  | csfr => simp only [Core.read, Register.canonical_of_isCell hx]; rfl
  | _ => rfl

variable [Bus β] {pc : Address}

/-- What every statement of the code keeps, a run keeps. -/
theorem run_keeps {P : Machine β → Prop} {code : List Stmt}
    (hstep : ∀ stmt ∈ code, ∀ m, P m → P (stmt.exec pc m).1) {fuel : Nat} {rest : List Stmt}
    {m : Machine β} (hrest : rest ⊆ code) (hm : P m) : P (run pc code fuel rest m).1 := by
  fun_induction run pc code fuel rest m with
  | case1 => exact hm
  | case2 => exact hm
  | case3 fuel stmt rest m m' h ih =>
    have hm' := hstep stmt (hrest (by simp)) m hm
    rw [h] at hm'
    exact ih (fun s hs => hrest (by simp [hs])) hm'
  | case4 fuel stmt rest m m' t h =>
    have hm' := hstep stmt (hrest (by simp)) m hm
    rwa [h] at hm'
  | case5 fuel stmt rest m m' l h rest' hl ih =>
    have hm' := hstep stmt (hrest (by simp)) m hm
    rw [h] at hm'
    exact ih (fromMark?_suffix hl).subset hm'
  | case6 fuel stmt rest m m' l h hl =>
    have hm' := hstep stmt (hrest (by simp)) m hm
    rwa [h] at hm'

/-- A run leaves the cells that no statement writes as they are. -/
theorem read_run {m : Machine β} {code : List Stmt} {fuel : Nat} {x : Register} (hx : x.IsCell)
    (hicr : x ≠ .csfr Core.icr) (h : ∀ stmt ∈ code, x ∉ stmt.written) :
    (m.run pc code fuel code).1.core.read x = m.core.read x :=
  run_keeps (P := fun m' => m'.core.read x = m.core.read x)
    (fun stmt hs _ hm => (Stmt.read_exec hx hicr (h stmt hs)).trans hm) (List.Subset.refl _) rfl

theorem step_eq {isa : Isa} {m : Machine β} {bytes : List Byte} {i : Instruction} {t : Trace}
    (hf : fetch m.bus m.core.pc = .ok bytes)
    (hd : Instruction.decode isa bytes m.core.pc = .ok i) (hl : i.lift .empty = .ok t) :
    m.step isa = (m.start i).run i.addr t.stmts t.stmts.length t.stmts := by
  simp only [step, hf, hd, perform, hl]
  rfl

end Machine

end Tricore
