import Mathlib
import Tricore.Proofs.Contexts
import Tricore.Proofs.MemoryAccess

/-!
# Contexts in memory

A context can also be stored to sixteen words of memory, and loaded from there. The address is that of
a memory operand which moves no register, and it is known before the first word is accessed, so it
does not matter that the base register may be one of those that are loaded.

What a store of registers leaves is told word by word (`Machine.storeRegisters_of_admits`), and so is
what a load finds (`Machine.loadRegisters_of_admits`). So a context that was stored and not
overwritten since loads back (`stored_contexts_load_back`).
-/

namespace Tricore

/-! ## Words in a row -/

namespace Window

/-- The `n` words from an address on. -/
def words (w : Window) (addr : Address) : Nat → List Word
  | 0 => []
  | n + 1 => .ofNat 32 (w.number addr 4) :: w.words (addr + 4) n

/-- Are the `n` words from an address on inside the window? -/
def coversWords (w : Window) (addr : Address) : Nat → Bool
  | 0 => true
  | n + 1 => w.covers addr 4 && w.coversWords (addr + 4) n

/-- All of the `n` words from an address on can be accessed. -/
def AdmitsWords (w : Window) (addr : Address) : Nat → Prop
  | 0 => True
  | n + 1 => w.Admits addr .word ∧ w.AdmitsWords (addr + 4) n

/-- What a window becomes when words are written from an address on. Addresses are counted around the
end of the address space. -/
structure ReceivesWords (w : Window) (addr : Address) (vs : List Word) (w' : Window) : Prop where
  extent : w.SameExtent w'
  words : w'.words addr vs.length = vs
  others : ∀ other n, 4 * vs.length ≤ (other - addr).toNat → (other - addr).toNat + n ≤ 2 ^ 32 →
    w'.number other n = w.number other n

variable {w w₁ w' : Window} {addr : Address} {n : Nat}

theorem admitsWords_of_covers (heven : addr.getLsbD 0 = false) (h : w.coversWords addr n = true) :
    w.AdmitsWords addr n := by
  induction n generalizing addr with
  | zero => trivial
  | succ n ih =>
    rw [coversWords, Bool.and_eq_true] at h
    have hfour : (addr + 4).getLsbD 0 = false := by
      rw [BitVec.getLsbD_add (by decide), heven]
      simp
    exact ⟨⟨by rw [Machine.misaligned, heven, Bool.and_false], h.1⟩, ih hfour h.2⟩

theorem SameExtent.admitsWords (h : w.SameExtent w') (hw : w.AdmitsWords addr n) :
    w'.AdmitsWords addr n := by
  induction n generalizing addr with
  | zero => trivial
  | succ n ih => exact ⟨h.admits hw.1, ih hw.2⟩

theorem Receives.cons {v : Value} {vs : List Word} (h : w.Receives addr 4 v w₁)
    (hvs : w₁.ReceivesWords (addr + 4) vs w') (hlength : 4 * (vs.length + 1) ≤ 2 ^ 32) :
    w.ReceivesWords addr (v.setWidth 32 :: vs) w' where
  extent := h.extent.trans hvs.extent
  words := by
    -- The later words stop short of the first one.
    have hfirst : w'.number addr 4 = v.toNat % 2 ^ 32 := by
      rw [hvs.others addr 4 (by bv_omega) (by bv_omega)]
      exact h.number
    rw [List.length_cons, Window.words, hvs.words, hfirst]
    exact congrArg (· :: vs) (BitVec.eq_of_toNat_eq (by simp))
  others other n hlow hhigh := by
    rw [List.length_cons] at hlow
    rw [hvs.others other n (by bv_omega) (by bv_omega)]
    exact h.number_apart (by bv_omega) (by bv_omega)

end Window

namespace Machine

variable {m : Machine Window} {addr : Address}

theorem storeRegisters_of_admits (rs : List Register) (h : m.bus.AdmitsWords addr rs.length)
    (hlength : 4 * rs.length ≤ 2 ^ 32) :
    ∃ bus, m.storeRegisters addr rs = ({ m with bus }, none) ∧
      m.bus.ReceivesWords addr (rs.map fun r => (m.core.read r).setWidth 32) bus := by
  induction rs generalizing m addr with
  | nil => exact ⟨m.bus, rfl, ⟨rfl, rfl⟩, rfl, fun _ _ _ _ => rfl⟩
  | cons r rs ih =>
    rw [List.length_cons] at hlength
    obtain ⟨bus₁, hstore, hreceives⟩ := store_of_admits (m.core.read r) h.1
    obtain ⟨bus, hrest, hwords⟩ := ih (m := { m with bus := bus₁ })
      (hreceives.extent.admitsWords h.2) (by omega)
    refine ⟨bus, ?_, hreceives.cons hwords (by rwa [List.length_map])⟩
    simp only [storeRegisters, hstore, hrest]

theorem loadRegisters_of_admits (rs : List Register) (h : m.bus.AdmitsWords addr rs.length) :
    m.loadRegisters addr rs = (⟨(rs.zip (m.bus.words addr rs.length)).foldl
      (fun c x => c.write x.1 (x.2.setWidth 64)) m.core, m.bus⟩, none) := by
  induction rs generalizing m addr with
  | nil => rfl
  | cons r rs ih =>
    have hvalue : (BitVec.ofNat 32 (m.bus.number addr 4)).setWidth 64 =
        BitVec.ofNat 64 (m.bus.number addr 4) :=
      Access.setWidth_ofNat (m.bus.number_lt addr 4) (by decide)
    simp only [loadRegisters, load_of_admits h.1]
    rw [ih (m := m.withCore _) h.2, List.length_cons, Window.words, List.zip_cons_cons,
      List.foldl_cons, hvalue]
    rfl

variable (kind : ContextKind)

theorem storeRegisters_layout (h : m.bus.AdmitsWords addr 16) :
    ∃ bus, m.storeRegisters addr kind.layout.toList = ({ m with bus }, none) ∧
      m.bus.ReceivesWords addr (m.core.saved kind).words.toList bus := by
  have hlength : kind.layout.toList.length = 16 := Vector.length_toList
  obtain ⟨bus, hstore, hwords⟩ := storeRegisters_of_admits kind.layout.toList
    (by rwa [hlength]) (by rw [hlength]; decide)
  rw [← Vector.toList_map] at hwords
  exact ⟨bus, hstore, hwords⟩

theorem loadRegisters_layout {vs : Vector Word 16} (h : m.bus.AdmitsWords addr 16)
    (hwords : m.bus.words addr 16 = vs.toList) :
    m.loadRegisters addr kind.layout.toList =
      ({ m with core := m.core.loadContext kind vs }, none) := by
  have hlength : kind.layout.toList.length = 16 := Vector.length_toList
  rw [loadRegisters_of_admits kind.layout.toList (by rwa [hlength]), hlength, hwords,
    Core.loadContext, ← Vector.foldl_toList, Vector.toList_zip]

end Machine

/-! ## Instructions -/

namespace ContextKind

/-- The mnemonic of the instruction that stores a context. -/
def storeName : ContextKind → String
  | upper => "stucx"
  | lower => "stlcx"

/-- The mnemonic of the instruction that loads a context. -/
def loadName : ContextKind → String
  | upper => "lducx"
  | lower => "ldlcx"

def storing : ContextKind → Intrinsic
  | upper => .storeUpperContext
  | lower => .storeLowerContext

def loading : ContextKind → Intrinsic
  | upper => .loadUpperContext
  | lower => .loadLowerContext

end ContextKind

theorem Opcode.context_rows (kind : ContextKind) : ∀ g ∈ table, ∀ r ∈ g.rows,
    (r.mnemonic = kind.storeName → r.action = .context kind.storing ∧
      r.operands ∈ [[.absolute], [.based .plain]]) ∧
    (r.mnemonic = kind.loadName → r.action = .context kind.loading ∧
      r.operands ∈ [[.absolute], [.based .plain]]) := by
  cases kind <;> decide +kernel

namespace Instruction

variable {isa : Isa} {m : Machine Window} {i : Instruction} {kind : ContextKind} {p : Place}

/-- The only operand is a place in memory, and to take its address moves no register. -/
theorem operands_of_context (hi : m.instruction? isa = some i)
    (hname : i.mnemonic = kind.storeName ∨ i.mnemonic = kind.loadName) :
    ∃ p e, i.operands = [.place p] ∧ p.Decoded ∧ Lift.access p = pure ⟨e, []⟩ := by
  obtain ⟨g, hg, hr, raw, addr, hos⟩ := resolved hi
  have hdecoded {p : Place} (hops : i.operands = [.place p]) : p.Decoded :=
    Place.decoded_of_mem hos (by rw [hops]; simp)
  have hrow : i.row.operands ∈ [[OperandKind.absolute], [.based .plain]] := by
    rcases hname with hname | hname
    · exact ((Opcode.context_rows kind g hg _ hr).1 hname).2
    · exact ((Opcode.context_rows kind g hg _ hr).2 hname).2
  obtain ⟨k, hrow, hk⟩ : ∃ k, i.row.operands = [k] ∧ (k = .absolute ∨ k = .based .plain) := by
    simp only [List.mem_cons, List.not_mem_nil, or_false] at hrow
    rcases hrow with hrow | hrow
    · exact ⟨_, hrow, .inl rfl⟩
    · exact ⟨_, hrow, .inr rfl⟩
  rw [hrow, List.forall₂_cons_left_iff] at hos
  obtain ⟨o, os, ho, hnil, hops⟩ := hos
  rw [List.forall₂_nil_left_iff.1 hnil] at hops
  rcases hk with rfl | rfl <;> cases ho <;> exact ⟨_, _, hops, hdecoded hops, rfl⟩

theorem step_context {c : Intrinsic} {e : Expr} {m' : Machine Window}
    (hi : m.instruction? isa = some i) (ha : i.row.action = .context c)
    (hops : i.operands = [.place p]) (hp : p.Decoded) (haccess : Lift.access p = pure ⟨e, []⟩)
    (h : (m.start i).intrinsic i.addr c (Lift.contextOutputs c)
      [(p.address m.core).setWidth 64] = (m', none)) : m.step isa = (m', .done) := by
  obtain ⟨bytes, hf, hd⟩ := Machine.instruction?_eq_some.1 hi
  have hsource : (Lift.Source.of i).operands = [.place p] :=
    (operands_of_unselected (by rw [hops]; simp [Operand.shape])).trans hops
  have hplan : i.plan = Lift.emitting (Lift.access p >>= fun a =>
      Lift.intrinsic c (Lift.contextOutputs c) [a.addr] >>= fun _ => Lift.emitAll a.updates) := by
    rw [Instruction.plan, ha, Lift.plan, Lift.Plan.context, Lift.Plan.addressed,
      Lift.Source.place_of 0 hsource rfl]
    rfl
  let s : Lift.Supply := { temps := 0, labels := 0, labelAt? := fun _ => none }
  obtain ⟨m₁, hrun, hready⟩ : (Lift.access p).Runs i.addr s (m.start i)
      fun a s' m' => a.Ready i.addr (m.start i) 0 p s'.temps m' :=
    Lift.runs_access hp fun _ _ _ h => h
  rw [haccess] at hplan hrun hready
  cases hrun
  have haddr : e.eval (m.start i) = .ok ((p.address m.core).setWidth 64) := by
    rw [← (hp.start m i).1]
    exact hready.addr.eval (m.start i) (.refl _ _)
  have hcall : (Stmt.intrinsic c (Lift.contextOutputs c) [e]).exec i.addr (m.start i) =
      (m', .next) := by
    simp only [Stmt.exec, Expr.evalList, haddr, bind, Except.bind, pure, Except.pure, h]
    rfl
  exact (Machine.step_of_plan hf hd hplan).trans ((Machine.Executes.cons hcall (.nil m')).run _)

end Instruction

/-- The core after a context has been loaded that was stored from another one. -/
structure Core.Reloads (kind : ContextKind) (stored c c' : Core) : Prop where
  context : ∀ r ∈ kind.layout.toList, c'.read r = stored.read r
  others : ∀ x : Register, x.Persistent → x ∉ kind.layout.toList → c'.read x = c.read x
  frames : c'.frames = c.frames

namespace Machine

variable {isa : Isa} {m : Machine Window} {i : Instruction} {kind : ContextKind} {p : Place}
  {e : Expr} (hi : m.instruction? isa = some i) (hops : i.operands = [.place p]) (hp : p.Decoded)
  (haccess : Lift.access p = pure ⟨e, []⟩)
  (hadmits : m.bus.AdmitsWords (p.address m.core) 16)
include hi hops hp haccess hadmits

theorem step_storeContext (ha : i.row.action = .context kind.storing) :
    ∃ bus, m.step isa = ({ m.start i with bus }, .done) ∧
      m.bus.ReceivesWords (p.address m.core) (m.core.saved kind).words.toList bus := by
  have haddr : ((p.address m.core).setWidth 64).setWidth 32 = p.address m.core := by simp
  obtain ⟨bus, hstore, hwords⟩ := storeRegisters_layout (m := m.start i) kind hadmits
  have hsaved : (m.start i).core.saved kind = m.core.saved kind :=
    Core.saved_congr kind ⟨rfl, rfl, rfl, rfl⟩
  rw [hsaved] at hwords
  have hcall : (m.start i).intrinsic i.addr kind.storing (Lift.contextOutputs kind.storing)
      [(p.address m.core).setWidth 64] =
        (m.start i).storeRegisters (p.address m.core) kind.layout.toList := by
    cases kind <;> simp only [intrinsic, ContextKind.storing, List.getD_cons_zero, haddr]
  exact ⟨bus, Instruction.step_context hi ha hops hp haccess (hcall.trans hstore), hwords⟩

theorem step_loadContext {stored : Core} (ha : i.row.action = .context kind.loading)
    (hwords : m.bus.words (p.address m.core) 16 = (stored.saved kind).words.toList) :
    (m.step isa).2 = .done ∧ (m.step isa).1.bus = m.bus ∧
      stored.Reloads kind m.core (m.step isa).1.core := by
  have haddr : ((p.address m.core).setWidth 64).setWidth 32 = p.address m.core := by simp
  have hload := loadRegisters_layout (m := m.start i) kind hadmits hwords
  have hcall : (m.start i).intrinsic i.addr kind.loading (Lift.contextOutputs kind.loading)
      [(p.address m.core).setWidth 64] =
        (m.start i).loadRegisters (p.address m.core) kind.layout.toList := by
    cases kind <;> simp only [intrinsic, ContextKind.loading, List.getD_cons_zero, haddr]
  rw [Instruction.step_context hi ha hops hp haccess (hcall.trans hload)]
  refine ⟨rfl, rfl, fun r hr => Core.read_loadContext_saved _ hr, fun x hx hnot => ?_,
    Core.frames_loadContext ..⟩
  obtain ⟨hcell, hpc, htemp⟩ := hx
  exact (Core.read_loadContext hcell hnot).trans (read_start hcell hpc htemp)

end Machine

/-- A context that is stored to sixteen words inside the window loads back: whenever the words are
still the same, its registers get the values that were stored, and nothing else changes, whichever
register the address comes from. -/
theorem stored_contexts_load_back (isa : Isa) (kind : ContextKind) (m m₂ : Machine Window)
    {i j : Instruction} (hi : m.instruction? isa = some i) (hstore : i.mnemonic = kind.storeName)
    (hj : m₂.instruction? isa = some j) (hload : j.mnemonic = kind.loadName) :
    ∃ p q, i.operands = [.place p] ∧ j.operands = [.place q] ∧
      ((p.address m.core).getLsbD 0 = false → m.bus.coversWords (p.address m.core) 16 = true →
        (m.step isa).2 = .done ∧ (m.step isa).1.core = (m.start i).core ∧
        m.bus.ReceivesWords (p.address m.core) (m.core.saved kind).words.toList
          (m.step isa).1.bus ∧
        (q.address m₂.core = p.address m.core → (m.step isa).1.bus.SameExtent m₂.bus →
          m₂.bus.words (p.address m.core) 16 = (m.step isa).1.bus.words (p.address m.core) 16 →
          (m₂.step isa).2 = .done ∧ (m₂.step isa).1.bus = m₂.bus ∧
            m.core.Reloads kind m₂.core (m₂.step isa).1.core)) := by
  obtain ⟨p, e, hp, hpdecoded, hpaccess⟩ := Instruction.operands_of_context hi (.inl hstore)
  obtain ⟨q, e', hq, hqdecoded, hqaccess⟩ := Instruction.operands_of_context hj (.inr hload)
  obtain ⟨g, hg, hr, -⟩ := Instruction.resolved hi
  obtain ⟨g', hg', hr', -⟩ := Instruction.resolved hj
  refine ⟨p, q, hp, hq, fun heven hcovers => ?_⟩
  have hadmits := Window.admitsWords_of_covers heven hcovers
  obtain ⟨bus, hstep, hreceives⟩ := Machine.step_storeContext hi hp hpdecoded hpaccess hadmits
    ((Opcode.context_rows kind g hg _ hr).1 hstore).1
  rw [hstep]
  refine ⟨rfl, rfl, hreceives, fun hsame hextent hwords => ?_⟩
  have hadmits₂ : m₂.bus.AdmitsWords (q.address m₂.core) 16 := by
    rw [hsame]
    exact hextent.admitsWords (hreceives.extent.admitsWords hadmits)
  have hstored := hreceives.words
  rw [Vector.length_toList] at hstored
  rw [← hsame] at hwords hstored
  exact Machine.step_loadContext hj hq hqdecoded hqaccess hadmits₂
    ((Opcode.context_rows kind g' hg' _ hr').2 hload).1 (hwords.trans hstored)

/-- `stucx [a12]; mov d8, 5; mov.aa a13, a12; lducx [a13]`. -/
def contextStored : Machine Window where
  core := (((({} : Core).setA 12 32).setA 13 7).setD 8 3).setD 0 9
  bus := { base := 0, size := 96, bytes := .putAll .empty 0 ([0x49, 0xC0, 0xC0, 0x09] ++
    [0x82, 0x58] ++ [0x40, 0xCD] ++ [0x49, 0xD0, 0x40, 0x09]) }

/-- The base register of the load gets another value. -/
theorem stored_contexts_load_back_over_base :
    contextStored.core.Reloads .upper (contextStored.after .v16 3).core
        (contextStored.after .v16 4).core ∧
      (contextStored.after .v16 3).core.read (.a 13) = 32 ∧
      (contextStored.after .v16 4).core.read (.a 13) = 7 := by
  have hdecoded (name : String) (m : Machine Window) (place : Place)
      (h : (m.instruction? .v16).any
        (fun i => i.mnemonic = name ∧ i.operands = [.place place]) = true) :
      ∃ i, m.instruction? .v16 = some i ∧ i.mnemonic = name ∧ i.operands = [.place place] := by
    simpa only [Option.any_eq_true, decide_eq_true_eq] using h
  obtain ⟨i, hi, hstore, hplace⟩ := hdecoded "stucx" contextStored (.based (.a 12) 0)
    (by decide +kernel)
  obtain ⟨j, hj, hload, hplace'⟩ := hdecoded "lducx" (contextStored.after .v16 3)
    (.based (.a 13) 0) (by decide +kernel)
  obtain ⟨p, q, hp, hq, hback⟩ := stored_contexts_load_back .v16 .upper contextStored
    (contextStored.after .v16 3) hi hstore hj hload
  obtain rfl : .based (.a 12) 0 = p := by simpa [hplace] using hp
  obtain rfl : .based (.a 13) 0 = q := by simpa [hplace'] using hq
  obtain ⟨-, -, -, hloads⟩ := hback (by decide +kernel) (by decide +kernel)
  -- One evaluation of the run for all that is asked of it.
  have hrun : (contextStored.after .v16 3).core.read (.a 13) = 32 ∧
      (contextStored.after .v16 3).bus.base = (contextStored.step .v16).1.bus.base ∧
      (contextStored.after .v16 3).bus.size = (contextStored.step .v16).1.bus.size ∧
      (contextStored.after .v16 3).bus.words 32 16 = (contextStored.step .v16).1.bus.words 32 16 := by
    decide +kernel
  obtain ⟨hbase, hextent, hsize, hwords⟩ := hrun
  have hstored : Place.address contextStored.core (.based (.a 12) 0) = 32 := by decide +kernel
  have haddr : Place.address (contextStored.after .v16 3).core (.based (.a 13) 0) = 32 := by
    rw [Place.address, Operand.word, Operand.value, hbase]
    rfl
  rw [hstored] at hloads
  obtain ⟨-, -, hreloads⟩ := hloads haddr ⟨hextent, hsize⟩ hwords
  exact ⟨hreloads, hbase, (hreloads.context (.a 13) (by decide)).trans (by decide)⟩

end Tricore
