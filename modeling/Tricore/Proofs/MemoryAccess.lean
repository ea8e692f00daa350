import Mathlib
import Tricore.Proofs.Addressing
import Tricore.Proofs.Bytes

/-!
# Loads and stores

A load or a store completes exactly if the window admits the access. Then a load leaves in its
register what the bytes at the address stand for (`Machine.Loads`), and a store leaves the bytes of
its register there and no others changed (`Machine.Stores`). In both cases address, source and
update are those of the registers before the instruction, although they may have registers in common
(`accesses_follow_mode`).

Where the register that is updated is one that was loaded, the update is what stays.
-/

namespace Tricore

/-! ## Kinds of access -/

namespace Access

/-- How the mnemonics end. -/
def suffix : Access → String
  | byte => "b"
  | byteU => "bu"
  | half => "h"
  | halfU => "hu"
  | word => "w"
  | address => "a"
  | double => "d"
  | addressPair => "da"
  | fraction => "q"

/-- The registers that are loaded and stored. -/
def shape : Access → Shape
  | address => .address
  | double => .dataPair
  | addressPair => .addressPair
  | _ => .data

/-- What is loaded where memory has a number. -/
def loaded : Access → Nat → Value
  | byte, n => ((BitVec.ofNat 8 n).signExtend 32).setWidth 64
  | half, n => ((BitVec.ofNat 16 n).signExtend 32).setWidth 64
  | fraction, n => .ofNat 64 (n * 2 ^ 16)
  | _, n => .ofNat 64 n

/-- The value whose low bytes are stored. -/
def stored : Access → Value → Value
  | fraction, v => v >>> 16
  | _, v => v

end Access

def Action.load? : Action → Option Access
  | load kind => some kind
  | _ => none

def Action.store? : Action → Option Access
  | store kind => some kind
  | _ => none

/-- The rows of these instructions. -/
theorem Opcode.access_rows : ∀ g ∈ table, ∀ r ∈ g.rows,
    (∀ kind ∈ r.action.load?, r.mnemonic = "ld." ++ kind.suffix ∧
      r.operands.map (·.shape) = [kind.shape, .place]) ∧
    (∀ kind ∈ r.action.store?, r.mnemonic = "st." ++ kind.suffix ∧
      r.operands.map (·.shape) = [.place, kind.shape]) := by
  decide +kernel

/-! ## What an access leaves -/

/-- A cell of the core other than the program counter and the temporaries. -/
def Register.Persistent (x : Register) : Prop :=
  x.IsCell ∧ x ≠ .pc ∧ ∀ n, x ≠ .temp n ∧ x ≠ .tempWide n

/-- The cells of the register that is updated. -/
def Place.touched (c : Core) (p : Place) : List Register := (p.update? c).elim [] (·.1.cells)

namespace Machine

/-- The registers after an access that has written some cells: the update of the addressing mode is
made, and all other cells are as they were. -/
structure Moves {β : Type} (m : Machine β) (p : Place) (written : List Register) (m' : Machine β) :
    Prop where
  update : ∀ r w, p.update? m.core = some (r, w) → m'.core.read r = w.setWidth 64
  others : ∀ x : Register, x.Persistent → x ∉ written → x ∉ p.touched m.core →
    m'.core.read x = m.core.read x

/-- What a load leaves: each cell of its register has its word of what is loaded, if it is not the
one that is updated. -/
structure Loads (m : Machine Window) (kind : Access) (p : Place) (dst : Register)
    (m' : Machine Window) : Prop where
  memory : m'.bus = m.bus
  value : ∀ k x, dst.cells[k]? = some x → x ∉ p.touched m.core →
    m'.core.read x = ((kind.loaded (m.bus.number (p.address m.core) kind.width.bytes)
      >>> (32 * k)).setWidth 32).setWidth 64
  registers : m.Moves p dst.cells m'

/-- What a store leaves: the bytes of its register in memory. -/
structure Stores (m : Machine Window) (kind : Access) (p : Place) (src : Register)
    (m' : Machine Window) : Prop where
  memory : m.bus.Receives (p.address m.core) kind.width.bytes (kind.stored (m.core.read src)) m'.bus
  registers : m.Moves p [] m'

/-- A load has written its register, and then the update was made. -/
def LoadsFirst (m : Machine Window) (kind : Access) (p : Place) (dst : Register)
    (m' : Machine Window) : Prop :=
  let v := kind.loaded (m.bus.number (p.address m.core) kind.width.bytes)
  ∃ n n₁ m₁ m₂, m.Extends n m₁ n₁ ∧ m₂ = m₁.withCore (·.write dst v) ∧
    m' = m₂.updated (p.updateAfter? m.core m₂.core)

end Machine

/-! ## Registers -/

namespace Core

theorem read_setD_self (c : Core) (n : Nat) (v : Word) :
    (c.setD n v).read (.d (n % 16)) = v.setWidth 64 := by
  simp [read, setD, Register.canonical, Vector.get_eq_getElem]

theorem read_setA_self (c : Core) (n : Nat) (v : Word) :
    (c.setA n v).read (.a (n % 16)) = v.setWidth 64 := by
  simp [read, setA, Register.canonical, Vector.get_eq_getElem]

/-- The cells of a register take the words of what is written to it, the lowest first. -/
theorem read_write_cell (c : Core) {r x : Register} (hr : r.Ordinary) (v : Value) {k : Nat}
    (h : r.cells[k]? = some x) :
    (c.write r v).read x = ((v >>> (32 * k)).setWidth 32).setWidth 64 := by
  have hd (n : Nat) : (Register.d (n % 16)).IsCell := Nat.mod_lt n (by decide)
  have ha (n : Nat) : (Register.a (n % 16)).IsCell := Nat.mod_lt n (by decide)
  have hne (n : Nat) : n % 16 ≠ (n + 1) % 16 := by omega
  cases r with
  | d n =>
    rcases k with _ | k
    · cases h
      exact read_setD_self c n _
    · simp [Register.cells, Register.canonical] at h
  | a n =>
    rcases k with _ | k
    · cases h
      exact read_setA_self c n _
    · simp [Register.cells, Register.canonical] at h
  | e n =>
    rcases k with _ | _ | k
    · cases h
      exact (read_setD (hd n) (by simpa using hne n)).trans (read_setD_self c n _)
    · cases h
      exact read_setD_self _ (n + 1) _
    · simp [Register.cells, Register.canonical] at h
  | p n =>
    rcases k with _ | _ | k
    · cases h
      exact (read_setA (ha n) (by simpa using hne n)).trans (read_setA_self c n _)
    · cases h
      exact read_setA_self _ (n + 1) _
    · simp [Register.cells, Register.canonical] at h
  | _ => exact absurd rfl hr

end Core

theorem Register.Ordinary.isCell {r x : Register} (hr : r.Ordinary) (hx : x ∈ r.cells) :
    x.IsCell := by
  have hlt (n : Nat) : n % 16 < 16 := Nat.mod_lt n (by decide)
  cases r with
  | d n | a n => rw [List.mem_singleton.1 hx]; exact hlt n
  | e n | p n =>
    obtain rfl | rfl := List.mem_pair.1 hx
    · exact hlt n
    · exact hlt (n + 1)
  | _ => exact absurd rfl hr

theorem Register.Ordinary.settled {r : Register} (hr : r.Ordinary) (n : Nat) : r.Settled n := by
  cases r with
  | d | a | e | p => trivial
  | _ => exact absurd rfl hr

theorem Machine.Extends.read {β : Type} {m m' : Machine β} {n n' : Nat} (h : m.Extends n m' n')
    {x : Register} (hx : x.Persistent) : m'.core.read x = m.core.read x := by
  obtain ⟨hcell, hpc, htemp⟩ := hx
  by_cases hpsw : x = .psw
  · rw [hpsw]
    exact congrArg (BitVec.setWidth 64) h.psw
  · refine h.grows.read x ?_
    unfold Register.Settled
    rw [Register.canonical_of_isCell hcell]
    cases x with
    | psw => exact absurd rfl hpsw
    | temp k => exact absurd rfl (htemp k).1
    | tempWide k => exact absurd rfl (htemp k).2
    | _ => trivial

theorem Place.late_eq_nil {p : Place} (h : p.reverses = false) : p.late = [] := by
  cases p with
  | bitReverse => cases h
  | _ => rfl

theorem Place.Decoded.persistent_late {p : Place} (hp : p.Decoded) {x : Register}
    (hx : x ∈ p.late) : x.Persistent := by
  cases p with
  | bitReverse =>
    obtain ⟨k, rfl⟩ := hp
    rw [List.mem_singleton.1 hx]
    exact ⟨Nat.mod_lt (k + 1) (by decide), nofun, fun _ => ⟨nofun, nofun⟩⟩
  | _ => cases hx

/-! ## Values -/

namespace Access

/-- The value that is written to a register. -/
def widened (kind : Access) (loaded : Expr) : Expr :=
  match kind with
  | byte | half => .sext .word loaded
  | byteU | halfU => .zext .word loaded
  | fraction => .shl .word (.zext .word loaded) (.const .word 16)
  | word | address | double | addressPair => loaded

/-- The value that is written to memory. -/
def narrowed (kind : Access) (src : Expr) : Expr :=
  match kind with
  | byte | byteU => .low .byte src
  | half | halfU => .low .half src
  | fraction => .low .half (.lsr .word src (.const .word 16))
  | word | address | double | addressPair => src

variable {kind : Access} {m : Machine Window} {n : Nat} {e : Expr} {addr : Address}

theorem setWidth_ofNat {j k z : Nat} (hz : z < 2 ^ k) (hk : k ≤ j) :
    (BitVec.ofNat k z).setWidth j = BitVec.ofNat j z := by
  refine BitVec.eq_of_toNat_eq ?_
  rw [BitVec.toNat_setWidth_of_le hk, BitVec.toNat_ofNat, BitVec.toNat_ofNat, Nat.mod_eq_of_lt hz,
    Nat.mod_eq_of_lt (hz.trans_le (Nat.pow_le_pow_right (by decide) hk))]

theorem yields_load {w : Width} {k : Nat} (he : e.Yields m n addr) (hw : w.bits = k)
    (h : m.bus.Admits addr w) :
    (Expr.load w e).Yields m n (BitVec.ofNat k (m.bus.number addr w.bytes)) := by
  refine ⟨hw, fun m' hm => ?_⟩
  have hadmits : m'.bus.Admits addr w := by rwa [hm.bus]
  have hlt : m.bus.number addr w.bytes < 2 ^ k := hw ▸ m.bus.number_lt addr w.bytes
  rw [setWidth_ofNat hlt (hw ▸ w.bits_le)]
  simp only [Expr.eval, he.eval m' hm, bind, Except.bind, he.back, Machine.load_of_admits hadmits,
    hm.bus]

theorem yields_widened (he : e.Yields m n addr) (h : m.bus.Admits addr kind.width) :
    ∃ (k : Nat) (v : BitVec k), (kind.widened (.load kind.width e)).Yields m n v ∧
      v.setWidth 64 = kind.loaded (m.bus.number addr kind.width.bytes) := by
  have hlt : m.bus.number addr kind.width.bytes < 2 ^ kind.width.bits := m.bus.number_lt addr _
  have hload := yields_load he rfl h
  generalize m.bus.number addr kind.width.bytes = z at hlt hload
  have hfits {k : Nat} (hk : kind.width.bits ≤ k) : z < 2 ^ k :=
    hlt.trans_le (Nat.pow_le_pow_right (by decide) hk)
  cases kind with
  | byte | half => exact ⟨32, _, hload.extend (s := .signed) rfl (by decide), rfl⟩
  | byteU | halfU =>
    refine ⟨32, _, hload.extend (s := .unsigned) rfl (by decide), ?_⟩
    rw [Sign.widen, setWidth_ofNat hlt (by decide),
      setWidth_ofNat (hfits (by decide)) (by decide)]
    rfl
  | fraction =>
    have hword : Width.word.bits = 32 := rfl
    refine ⟨32, _, (hload.extend (s := .unsigned) hword (by decide)).shl_const (c := 16) hword
      (by decide), ?_⟩
    have hz : z < 2 ^ 16 := hlt
    have hshift : BitVec.ofNat 32 z <<< 16 = BitVec.ofNat 32 (z * 2 ^ 16) := by
      refine BitVec.eq_of_toNat_eq ?_
      simp [BitVec.toNat_shiftLeft, Nat.shiftLeft_eq]
    rw [Sign.widen, setWidth_ofNat hlt (by decide), show (16 : Value).toNat = 16 from rfl, hshift,
      setWidth_ofNat (by omega) (by decide)]
    rfl
  | word | address => exact ⟨32, _, hload, setWidth_ofNat hlt (by decide)⟩
  | double | addressPair => exact ⟨64, _, hload, setWidth_ofNat hlt le_rfl⟩

theorem eval_widened_error {t : Trap} (h : e.eval m = .error t) :
    (kind.widened e).eval m = .error t := by
  cases kind <;>
    simp only [widened, Expr.sext, Expr.zext, Expr.shl, Expr.eval, h, bind, Except.bind]

/-- Only the bytes that are stored count. -/
theorem eval_narrowed (kind : Access) (m : Machine Window) (r : Register) :
    ∃ v, (kind.narrowed (.reg r)).eval m = .ok v ∧
      kind.width.cut v = kind.width.cut (kind.stored (m.core.read r)) := by
  have hcut (w : Width) (v : Value) : w.cut (w.cut v) = w.cut v := by
    refine BitVec.eq_of_getLsbD_eq fun k _ => ?_
    simp only [Width.getLsbD_cut]
    cases decide (k < w.bits) <;> rfl
  cases kind with
  | byte | byteU | half | halfU => exact ⟨_, rfl, hcut _ _⟩
  | fraction =>
    refine ⟨_, rfl, (hcut _ _).trans ?_⟩
    show Width.half.cut (Width.word.cut (Width.word.cut (m.core.read r) >>> 16)) =
      Width.half.cut (m.core.read r >>> 16)
    refine BitVec.eq_of_getLsbD_eq fun k _ => ?_
    simp only [Width.getLsbD_cut, BitVec.getLsbD_ushiftRight]
    by_cases hk : k < 16
    · have hhalf : k < Width.half.bits := hk
      have hword : k < Width.word.bits ∧ 16 + k < Width.word.bits :=
        ⟨hk.trans (by decide), show 16 + k < 32 by omega⟩
      simp only [hhalf, hword, decide_true, Bool.true_and]
    · have hhalf : ¬ k < Width.half.bits := hk
      simp only [hhalf, decide_false, Bool.false_and]
  | word | address | double | addressPair => exact ⟨_, rfl, rfl⟩

end Access

/-! ## Emissions -/

namespace Machine

variable {β : Type} {m m₁ m₂ : Machine β} {p : Place} {n n₁ : Nat}

theorem store_congr {m : Machine Window} {addr : Address} {w : Width} {v v' : Value}
    (h : w.cut v = w.cut v') : m.store addr w v = m.store addr w v' := by
  unfold store
  rw [h]

theorem exec_store (pc : Address) {m : Machine Window} {e value : Expr} {addr : Address} {w : Width}
    {v v' : Value} (he : e.Yields m n addr) (hvalue : value.eval m = .ok v)
    (hcut : w.cut v = w.cut v') (h : m.bus.Admits addr w) :
    ∃ bus, (Stmt.store w e value).exec pc m = ({ m with bus }, .next) ∧
      m.bus.Receives addr w.bytes v' bus := by
  obtain ⟨bus, hstore, hreceives⟩ := store_of_admits v' h
  rw [← store_congr hcut] at hstore
  refine ⟨bus, ?_, hreceives⟩
  simp only [Stmt.exec, he.eval m (.refl m _), hvalue, he.back, hstore]
  rfl

theorem eval_load_refused {m : Machine Window} {e : Expr} {addr : Address} {w : Width}
    (he : e.Yields m n addr) (h : ¬ m.bus.Admits addr w) :
    (Expr.load w e).eval m = .error (refusal addr w) := by
  simp only [Expr.eval, he.eval m (.refl m _), bind, Except.bind, he.back, load_of_not_admits h]

/-- Temporaries are no part of a register that is written. -/
theorem sameTemps_write {dst : Register} (hdst : dst.Ordinary) (m : Machine β) (n : Nat)
    (v : Value) : m.SameTemps n (m.withCore (·.write dst v)) :=
  fun _ _ => ⟨Core.read_write trivial fun hmem => hdst.of_mem_cells hmem rfl,
    Core.read_write trivial fun hmem => hdst.of_mem_cells hmem rfl⟩

/-- The update comes last, so it stays. -/
theorem moves_updated (hp : p.Decoded) {written : List Register} (hm : m.Extends n m₁ n₁)
    (hwritten : ∀ x : Register, x.IsCell → x ∉ written → m₂.core.read x = m₁.core.read x) :
    m.Moves p written (m₂.updated (p.update? m.core)) where
  update r w hupdate := by
    obtain ⟨k, rfl⟩ := hp.exists_address hupdate
    rw [hupdate, read_updated_self]
  others x hx hnot htouched := by
    rw [read_updated hx.1 htouched, hwritten x hx.1 hnot, hm.read hx]

theorem Extends.updateAfter?_eq (hm : m.Extends n m₁ n₁) (hp : p.Decoded)
    (h : ∀ x ∈ p.late, m₂.core.read x = m₁.core.read x) :
    p.updateAfter? m.core m₂.core = p.update? m.core :=
  hp.updateAfter?_eq fun x hx => (h x hx).trans (hm.read (hp.persistent_late hx))

/-- A load that does not write what the update reads. -/
theorem LoadsFirst.loads {m m' : Machine Window} {kind : Access} {r : Register}
    (h : m.LoadsFirst kind p r m') (hp : p.Decoded) (hr : r.Ordinary)
    (hlate : ∀ x ∈ p.late, x ∉ r.cells) : m.Loads kind p r m' := by
  obtain ⟨n, n₁, m₁, m₂, hm, hm₂, rfl⟩ := h
  have hbus : m₂.bus = m.bus := by rw [hm₂]; exact hm.grows.bus
  have hothers (x : Register) (hx : x.IsCell) (hnot : x ∉ r.cells) :
      m₂.core.read x = m₁.core.read x := by
    rw [hm₂]
    exact Core.read_write hx hnot
  have hupdate : p.updateAfter? m.core m₂.core = p.update? m.core :=
    hm.updateAfter?_eq hp fun x hx => hothers x (hp.persistent_late hx).1 (hlate x hx)
  rw [hupdate]
  refine ⟨(bus_updated _ _).trans hbus, fun k x hx htouched => ?_, moves_updated hp hm hothers⟩
  refine (read_updated (hr.isCell (List.mem_of_getElem? hx)) htouched).trans ?_
  rw [hm₂]
  exact Core.read_write_cell _ hr _ hx

end Machine

namespace Lift

/-- A load, and the update that follows it. -/
def loading (kind : Access) (dst : Register) (p : Place) : Emit Unit := do
  let a ← access p
  set dst (kind.widened (.load kind.width a.addr))
  emitAll a.updates

/-- A store, and the update that follows it. -/
def storing (kind : Access) (p : Place) (src : Expr) : Emit Unit := do
  let a ← access p
  store kind.width a.addr (kind.narrowed src)
  emitAll a.updates

variable {pc : Address} {s : Supply} {m : Machine Window} {kind : Access} {p : Place}
  {r : Register}

section Admitted

variable (hp : p.Decoded) (hr : r.Ordinary) (h : m.bus.Admits (p.address m.core) kind.width)
include hp hr h

theorem runs_loading : (loading kind r p).Runs pc s m fun _ _ m' => m.LoadsFirst kind p r m' := by
  refine .bind (runs_access hp fun a s' m₁ ha => ?_)
  rw [← ha.since.grows.bus] at h
  obtain ⟨k, v, hv, hvalue⟩ := Access.yields_widened ha.addr h
  rw [ha.since.grows.bus] at hvalue
  refine .bind (.set hv ⟨_, ha.updates _ (Machine.sameTemps_write hr m₁ _ _), ?_⟩)
  rw [hvalue]
  exact ⟨_, _, m₁, _, ha.since, rfl, rfl⟩

theorem runs_storing :
    (storing kind p (.reg r)).Runs pc s m fun _ _ m' => m.Stores kind p r m' := by
  refine .bind (runs_access hp fun a s' m₁ ha => ?_)
  rw [← ha.since.grows.bus] at h
  obtain ⟨v, hv, hcut⟩ := Access.eval_narrowed kind m₁ r
  have hsource : m₁.core.read r = m.core.read r := ha.since.grows.read r (hr.settled _)
  rw [hsource] at hcut
  obtain ⟨bus, hexec, hreceives⟩ := Machine.exec_store pc ha.addr hv hcut h
  have hsame : m₁.SameTemps s'.temps { m₁ with bus } := fun _ _ => ⟨rfl, rfl⟩
  refine .bind (.emit hexec ⟨_, ha.updates _ hsame, ?_⟩)
  rw [ha.since.updateAfter?_eq hp fun x hx => rfl]
  refine ⟨?_, Machine.moves_updated hp ha.since fun x hx hnot => rfl⟩
  rw [Machine.bus_updated, ← ha.since.grows.bus]
  exact hreceives

end Admitted

section Refused

variable (hp : p.Decoded) (h : ¬ m.bus.Admits (p.address m.core) kind.width)
include hp h

theorem traps_loading :
    (loading kind r p).Traps pc s m (Machine.refusal (p.address m.core) kind.width) := by
  refine Emit.Runs.bind_traps (runs_access hp fun a s' m₁ ha => ?_)
  rw [← ha.since.grows.bus] at h
  have hexec : (Stmt.setReg r (kind.widened (.load kind.width a.addr))).exec pc m₁ =
      (m₁, .trap (Machine.refusal (p.address m.core) kind.width)) := by
    simp only [Stmt.exec, Access.eval_widened_error (Machine.eval_load_refused ha.addr h)]
  exact .bind (.emit hexec)

theorem traps_storing :
    (storing kind p (.reg r)).Traps pc s m (Machine.refusal (p.address m.core) kind.width) := by
  refine Emit.Runs.bind_traps (runs_access hp fun a s' m₁ ha => ?_)
  rw [← ha.since.grows.bus] at h
  obtain ⟨v, hv, -⟩ := Access.eval_narrowed kind m₁ r
  have hexec : (Stmt.store kind.width a.addr (kind.narrowed (.reg r))).exec pc m₁ =
      (m₁, .trap (Machine.refusal (p.address m.core) kind.width)) := by
    simp only [Stmt.exec, ha.addr.eval m₁ (.refl m₁ _), hv, ha.addr.back,
      Machine.store_of_not_admits _ h]
    rfl
  exact .bind (.emit hexec)

end Refused

end Lift

/-! ## Steps -/

namespace Machine

variable {m m' : Machine Window} {i : Instruction} {kind : Access} {p : Place}
  {r : Register} {written : List Register}

theorem Moves.of_start (hp : p.Decoded) (h : (m.start i).Moves p written m') :
    m.Moves p written m' := by
  obtain ⟨-, hupdate⟩ := hp.start m i
  refine ⟨fun r w hr => h.update r w (hupdate.trans hr), fun x hx hnot htouched => ?_⟩
  rw [h.others x hx hnot (by rwa [Place.touched, hupdate]), read_start hx.1 hx.2.1 hx.2.2]

theorem Loads.of_start (hp : p.Decoded) (h : (m.start i).Loads kind p r m') :
    m.Loads kind p r m' := by
  obtain ⟨haddress, hupdate⟩ := hp.start m i
  refine ⟨h.memory, fun k x hx htouched => ?_, h.registers.of_start hp⟩
  rw [h.value k x hx (by rwa [Place.touched, hupdate]), haddress]
  rfl

theorem Stores.of_start (hp : p.Decoded) (hr : r.Ordinary) (h : (m.start i).Stores kind p r m') :
    m.Stores kind p r m' := by
  have hmemory := h.memory
  rw [(hp.start m i).1, hr.read_start] at hmemory
  exact ⟨hmemory, h.registers.of_start hp⟩

end Machine

namespace Machine

variable {β : Type} [Bus β] {isa : Isa} {m : Machine β} {i : Instruction} {e : Lift.Emit Unit}
  {t : Trap} {A : Prop} {Q : Machine β → Prop}

/-- A step that completes under some condition and traps without it. -/
theorem done_iff (hdone : A → (m.step isa).2 = .done ∧ Q (m.step isa).1)
    (htrapped : ¬ A → (m.step isa).2 = .trapped t) :
    ((m.step isa).2 = .done ↔ A) ∧ ((m.step isa).2 = .done → Q (m.step isa).1) := by
  by_cases hA : A
  · exact ⟨iff_of_true (hdone hA).1 hA, fun _ => (hdone hA).2⟩
  · have hnot : (m.step isa).2 ≠ .done := by rw [htrapped hA]; nofun
    exact ⟨iff_of_false hnot hA, fun hdone => absurd hdone hnot⟩

theorem step_done_iff (hi : m.instruction? isa = some i) (hplan : i.plan = Lift.emitting e)
    (hruns : A → ∀ s, e.Runs i.addr s (m.start i) fun _ _ m' => Q m')
    (htraps : ¬ A → ∀ s, e.Traps i.addr s (m.start i) t) :
    ((m.step isa).2 = .done ↔ A) ∧ ((m.step isa).2 = .done → Q (m.step isa).1) :=
  done_iff (fun hA => step_of_runs hi hplan fun s _ => hruns hA s)
    fun hA => step_of_traps hi hplan fun s _ => htraps hA s

end Machine

theorem Lift.Source.place_of {s : Source} {os : List Operand} (k : Nat) (h : s.operands = os)
    {p : Place} (hk : os[k]? = some (.place p)) : s.place k = .ok p := by
  rw [place, operand_of k h hk]
  rfl

namespace Instruction

variable {isa : Isa} {m : Machine Window} {i : Instruction} {kind : Access} {p : Place}
  {r : Register}

theorem operands_of_access
    (hops : i.operands = [.reg r, .place p] ∨ i.operands = [.place p, .reg r]) :
    (Lift.Source.of i).operands = i.operands := by
  have hreg : (Operand.reg r).shape ≠ .selector := by cases r <;> nofun
  have hplace : (Operand.place p).shape ≠ .selector := nofun
  refine operands_of_unselected ?_
  rcases hops with hops | hops <;> rw [hops] <;> simp [hreg, hplace]

theorem plan_load (ha : i.row.action = .load kind) (hops : i.operands = [.reg r, .place p]) :
    i.plan = Lift.emitting (Lift.loading kind r p) := by
  have hsource : (Lift.Source.of i).operands = [.reg r, .place p] :=
    (operands_of_access (.inl hops)).trans hops
  rw [Instruction.plan, ha, Lift.plan]
  unfold Lift.Plan.load
  rw [Lift.Source.reg_of 0 hsource rfl, Lift.Source.place_of 1 hsource rfl]
  cases kind <;> rfl

theorem plan_store (ha : i.row.action = .store kind) (hops : i.operands = [.place p, .reg r])
    (hr : r.Ordinary) : i.plan = Lift.emitting (Lift.storing kind p (.reg r)) := by
  have hsource : (Lift.Source.of i).operands = [.place p, .reg r] :=
    (operands_of_access (.inr hops)).trans hops
  rw [Instruction.plan, ha, Lift.plan]
  unfold Lift.Plan.store
  rw [Lift.Source.place_of 0 hsource rfl,
    Lift.Source.value_of 1 hsource rfl (Operand.takes_value (Role.takes_register.2 ⟨r, rfl, hr⟩))]
  cases kind <;> rfl

theorem step_load_first (hi : m.instruction? isa = some i) (ha : i.row.action = .load kind)
    (hops : i.operands = [.reg r, .place p]) (hr : r.Ordinary) (hp : p.Decoded) :
    ((m.step isa).2 = .done ↔ m.bus.Admits (p.address m.core) kind.width) ∧
      ((m.step isa).2 = .done → (m.start i).LoadsFirst kind p r (m.step isa).1) := by
  rw [← (hp.start m i).1]
  exact Machine.step_done_iff hi (plan_load ha hops)
    (fun hadmits s => Lift.runs_loading hp hr hadmits)
    fun hrefused s => Lift.traps_loading hp hrefused

theorem step_store (hi : m.instruction? isa = some i) (ha : i.row.action = .store kind)
    (hops : i.operands = [.place p, .reg r]) (hr : r.Ordinary) (hp : p.Decoded) :
    ((m.step isa).2 = .done ↔ m.bus.Admits (p.address m.core) kind.width) ∧
      ((m.step isa).2 = .done → m.Stores kind p r (m.step isa).1) := by
  rw [← (hp.start m i).1]
  exact Machine.step_done_iff hi (plan_store ha hops hr)
    (fun hadmits s => (Lift.runs_storing hp hr hadmits).mono fun _ _ _ h => h.of_start hp hr)
    fun hrefused s => Lift.traps_storing hp hrefused

/-- A load whose update reads nothing late. -/
theorem step_load (hi : m.instruction? isa = some i) (ha : i.row.action = .load kind)
    (hops : i.operands = [.reg r, .place p]) (hr : r.Ordinary) (hp : p.Decoded)
    (hmode : p.reverses = false) :
    ((m.step isa).2 = .done ↔ m.bus.Admits (p.address m.core) kind.width) ∧
      ((m.step isa).2 = .done → m.Loads kind p r (m.step isa).1) := by
  obtain ⟨hiff, hfirst⟩ := step_load_first hi ha hops hr hp
  refine ⟨hiff, fun hdone => ((hfirst hdone).loads hp hr ?_).of_start hp⟩
  rw [Place.late_eq_nil hmode]
  exact fun x hx => nomatch hx

end Instruction

theorem Operand.exists_place {o : Operand} (h : o.shape = .place) : ∃ p, o = .place p := by
  cases o with
  | place p => exact ⟨p, rfl⟩
  | reg r => cases r <;> cases h
  | _ => cases h

theorem Access.exists_register {kind : Access} {o : Operand} (h : o.shape = kind.shape) :
    ∃ r : Register, o = .reg r ∧ r.shape = kind.shape ∧ r.Ordinary := by
  have htakes : Role.register.takes kind.shape = true := by cases kind <;> rfl
  obtain ⟨r, rfl, hr⟩ := Role.takes_register.1 (h ▸ htakes)
  exact ⟨r, rfl, h, hr⟩

section Operands

variable {isa : Isa} {m : Machine Window} {i : Instruction} {kind : Access}
  (hi : m.instruction? isa = some i)
include hi

theorem Instruction.operands_of_load (ha : i.row.action = .load kind) :
    i.mnemonic = "ld." ++ kind.suffix ∧ ∃ dst p, i.operands = [.reg dst, .place p] ∧
      dst.shape = kind.shape ∧ dst.Ordinary ∧ p.Decoded := by
  obtain ⟨g, hg, hr, raw, addr, hos⟩ := resolved hi
  obtain ⟨hname, hrow⟩ := (Opcode.access_rows g hg i.row hr).1 kind (by rw [ha]; rfl)
  rw [← shapes_of_resolved hos] at hrow
  simp only [List.map_eq_cons_iff, List.map_eq_nil_iff] at hrow
  obtain ⟨o, _, hops, ho, o', _, rfl, ho', rfl⟩ := hrow
  obtain ⟨dst, rfl, hdst, hordinary⟩ := Access.exists_register ho
  obtain ⟨p, rfl⟩ := Operand.exists_place ho'
  exact ⟨hname, dst, p, hops, hdst, hordinary, Place.decoded_of_mem hos (by rw [hops]; simp)⟩

theorem Instruction.operands_of_store (ha : i.row.action = .store kind) :
    i.mnemonic = "st." ++ kind.suffix ∧ ∃ src p, i.operands = [.place p, .reg src] ∧
      src.shape = kind.shape ∧ src.Ordinary ∧ p.Decoded := by
  obtain ⟨g, hg, hr, raw, addr, hos⟩ := resolved hi
  obtain ⟨hname, hrow⟩ := (Opcode.access_rows g hg i.row hr).2 kind (by rw [ha]; rfl)
  rw [← shapes_of_resolved hos] at hrow
  simp only [List.map_eq_cons_iff, List.map_eq_nil_iff] at hrow
  obtain ⟨o, _, hops, ho, o', _, rfl, ho', rfl⟩ := hrow
  obtain ⟨p, rfl⟩ := Operand.exists_place ho
  obtain ⟨src, rfl, hsrc, hordinary⟩ := Access.exists_register ho'
  exact ⟨hname, src, p, hops, hsrc, hordinary, Place.decoded_of_mem hos (by rw [hops]; simp)⟩

end Operands

/-- Loads and stores use and update their base as the addressing mode says. -/
theorem accesses_follow_mode (isa : Isa) (m : Machine Window) {i : Instruction}
    (hi : m.instruction? isa = some i) :
    (∀ kind, i.row.action = .load kind → i.mnemonic = "ld." ++ kind.suffix ∧
      ∃ dst p, i.operands = [.reg dst, .place p] ∧ dst.shape = kind.shape ∧
        (p.reverses = false →
          ((m.step isa).2 = .done ↔ m.bus.Admits (p.address m.core) kind.width) ∧
          ((m.step isa).2 = .done → m.Loads kind p dst (m.step isa).1))) ∧
    (∀ kind, i.row.action = .store kind → i.mnemonic = "st." ++ kind.suffix ∧
      ∃ src p, i.operands = [.place p, .reg src] ∧ src.shape = kind.shape ∧
        (p.reverses = false →
          ((m.step isa).2 = .done ↔ m.bus.Admits (p.address m.core) kind.width) ∧
          ((m.step isa).2 = .done → m.Stores kind p src (m.step isa).1))) := by
  refine ⟨fun kind ha => ?_, fun kind ha => ?_⟩
  · obtain ⟨hname, dst, p, hops, hdst, hordinary, hp⟩ := Instruction.operands_of_load hi ha
    exact ⟨hname, dst, p, hops, hdst, Instruction.step_load hi ha hops hordinary hp⟩
  · obtain ⟨hname, src, p, hops, hsrc, hordinary, hp⟩ := Instruction.operands_of_store hi ha
    exact ⟨hname, src, p, hops, hsrc, fun _ => Instruction.step_store hi ha hops hordinary hp⟩

/-- `ld.da p2, [p2+c]-4`, which loads both the base and the index of its own buffer. -/
def ringLoad : Machine Window where
  core := (({} : Core).write (.a 2) 16).write (.a 3) 0x00080000
  bus := { base := 0, size := 24, bytes := .putAll .empty 0 ([0x29, 0x22, 0xFC, 0xF5] ++
    .replicate 12 0 ++ [0x44, 0x33, 0x22, 0x11, 0x88, 0x77, 0x66, 0x55]) }

/-- `st.a [+a2]4, a2`, which stores the base that it updates. -/
def baseStore : Machine Window where
  core := ({} : Core).write (.a 2) 16
  bus := { base := 0, size := 24, bytes := .putAll .empty 0 [0x89, 0x22, 0x84, 0x05] }

theorem accesses_follow_mode_overlapping :
    ((ringLoad.step .v16).2 = .done ∧ (ringLoad.step .v16).1.core.read (.a 2) = 0x11223344 ∧
      (ringLoad.step .v16).1.core.read (.a 3) = 0x00080004) ∧
    (baseStore.step .v16).2 = .done ∧ (baseStore.step .v16).1.core.read (.a 2) = 20 ∧
      baseStore.bus.Receives 20 4 16 (baseStore.step .v16).1.bus := by
  constructor
  · obtain ⟨i, hi, ha, hoperands⟩ : ∃ i, ringLoad.instruction? .v16 = some i ∧
        i.row.action = .load .addressPair ∧
        i.operands = [.reg (.p 2), .place (.circular (.p 2) (-4))] :=
      ⟨_, rfl, by decide +kernel, by decide +kernel⟩
    obtain ⟨-, dst, p, hops, -, h⟩ := (accesses_follow_mode .v16 ringLoad hi).1 _ ha
    obtain ⟨rfl, rfl⟩ : dst = .p 2 ∧ p = .circular (.p 2) (-4) := by
      simpa [hoperands, eq_comm] using hops
    obtain ⟨hiff, hloads⟩ := h rfl
    have hdone := hiff.2 ⟨by decide +kernel, by decide +kernel⟩
    have hvalue := (hloads hdone).value 0 (.a 2) rfl (by decide +kernel)
    have hupdate := (hloads hdone).registers.update (.a 3) 0x00080004 (by decide +kernel)
    exact ⟨hdone, hvalue.trans (by decide +kernel), hupdate⟩
  · obtain ⟨i, hi, ha, hoperands⟩ : ∃ i, baseStore.instruction? .v16 = some i ∧
        i.row.action = .store .address ∧
        i.operands = [.place (.preIncrement (.a 2) 4), .reg (.a 2)] :=
      ⟨_, rfl, by decide +kernel, by decide +kernel⟩
    obtain ⟨-, src, p, hops, -, h⟩ := (accesses_follow_mode .v16 baseStore hi).2 _ ha
    obtain ⟨rfl, rfl⟩ : src = .a 2 ∧ p = .preIncrement (.a 2) 4 := by
      simpa [hoperands, eq_comm, and_comm] using hops
    obtain ⟨hiff, hstores⟩ := h rfl
    have hdone := hiff.2 ⟨by decide +kernel, by decide +kernel⟩
    have hupdate := (hstores hdone).registers.update (.a 2) 20 (by decide +kernel)
    exact ⟨hdone, hupdate, (hstores hdone).memory⟩

end Tricore
