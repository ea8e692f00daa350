import Mathlib
import Tricore.Memory.Scattered
import Tricore.Proofs.Bytes
import Tricore.Proofs.CheckedRun
import Tricore.Proofs.RegisterFile

/-!
# Values fit their widths

The value of an expression has no bits above the width of the expression. Operators, extensions and
constants are cut where they are evaluated. Registers, temporaries and loads are not: they rely on
what was written to the core (`Core.Attained`) and on the bus (`ReadsFit`). Nothing but `Core.write`
makes temporaries, and it cuts them, so statements lead from attained cores to attained cores.

To extend a value that fits keeps its number: as a number of bits if zeros are put above it, and as
a two's complement number if copies of its top bit are.
-/

namespace Tricore

/-! ## Values of a width -/

namespace Width

/-- The value has no bits above the width. -/
def Holds (w : Width) (v : Value) : Prop := v.toNat < 2 ^ (8 * w.bytes)

variable {w w' : Width} {v : Value}

theorem toNat_cut (w : Width) (v : Value) : (w.cut v).toNat = v.toNat % 2 ^ w.bits := by
  have hlt : v.toNat % 2 ^ w.bits < 2 ^ 64 := (Nat.mod_le _ _).trans_lt v.isLt
  rw [cut, BitVec.toNat_setWidth, BitVec.toNat_setWidth, Nat.mod_eq_of_lt hlt]

theorem holds_cut (w : Width) (v : Value) : w.Holds (w.cut v) := by
  rw [Holds, toNat_cut]
  exact Nat.mod_lt _ (Nat.two_pow_pos _)

theorem holds_double (v : Value) : double.Holds v := v.isLt

theorem holds_word (x : Word) : word.Holds (x.setWidth 64) :=
  cut_word x ▸ holds_cut word _

theorem holds_truth (w : Width) (t : Bool) : w.Holds (truth t) := by
  unfold Holds
  cases t <;> cases w <;> decide

/-- A wider width leaves a value that fits as it is. -/
theorem Holds.cut_eq (h : w.Holds v) (hle : w.bytes ≤ w'.bytes) : w'.cut v = v := by
  have hbits : 8 * w.bytes ≤ w'.bits := by unfold bits; omega
  have hpow : 2 ^ (8 * w.bytes) ≤ 2 ^ w'.bits := Nat.pow_le_pow_right (by decide) hbits
  refine BitVec.eq_of_toNat_eq ?_
  rw [toNat_cut, Nat.mod_eq_of_lt (h.trans_le hpow)]

/-- Copies of the top bit keep the signed number, as many of them as are kept. -/
theorem signed_cut_spread (v : Value) (hle : w.bytes ≤ w'.bytes) :
    w'.signed (w'.cut (w.spread v)) = w.signed v := by
  have hbits : w.bits ≤ w'.bits := by unfold bits; omega
  have hcut : (w.spread v).setWidth w'.bits = (v.setWidth w.bits).signExtend w'.bits := by
    refine BitVec.eq_of_getElem_eq fun i hi => ?_
    have hlong : i < 64 := hi.trans_le (bits_le w')
    rw [BitVec.getElem_setWidth, BitVec.getLsbD_eq_getElem hlong, spread, BitVec.getElem_signExtend,
      BitVec.getElem_signExtend]
  rw [signed, Checked.setWidth_cut, hcut, BitVec.toInt_signExtend_of_le hbits, ← signed]

end Width

/-! ## Memory -/

/-- A read has no more bytes than were asked for. -/
def ReadsFit {β : Type} [Bus β] (bus : β) : Prop :=
  ∀ addr (w : Width) v, Bus.read bus addr w.bytes = .ok v → w.Holds v

theorem length_readEach {readByte : Address → Except Fault Byte} {addr : Address} {n : Nat}
    {bs : List Byte} (h : readEach readByte addr n = .ok bs) : bs.length = n := by
  induction n generalizing addr bs with
  | zero => cases h; rfl
  | succ n ih =>
    rw [readEach] at h
    cases hb : readByte addr with
    | error fault => rw [hb] at h; cases h
    | ok b =>
      cases hbs : readEach readByte (addr + 1) n with
      | error fault => rw [hb, hbs] at h; cases h
      | ok rest =>
        rw [hb, hbs] at h
        cases h
        rw [List.length_cons, ih hbs]

theorem holds_assemble {w : Width} {bs : List Byte} (h : bs.length = w.bytes) :
    w.Holds (assemble bs) := by
  have hle : bs.length ≤ 8 := h ▸ Checked.bytes_le_eight w
  rw [Width.Holds, toNat_assemble hle, ← h]
  exact Bytes.toNat_lt bs

theorem Window.readsFit (memory : Window) : ReadsFit memory := by
  intro addr w v h
  simp only [Bus.read, readBytes] at h
  split at h
  · cases h
    exact holds_assemble (by simp [Store.slice_eq])
  · cases h

theorem Scattered.readsFit (memory : Scattered) : ReadsFit memory := by
  intro addr w v h
  simp only [Bus.read] at h
  cases hbs : readEach (readByte memory) addr w.bytes with
  | error fault => simp only [hbs] at h; cases h
  | ok bs =>
    simp only [hbs] at h
    cases h
    exact holds_assemble (length_readEach hbs)

theorem Machine.holds_load {β : Type} [Bus β] {m : Machine β} {addr : Address} {w : Width}
    {v : Value} (hbus : ReadsFit m.bus) (h : m.load addr w = .ok v) : w.Holds v := by
  unfold load at h
  split at h
  · cases h
  · cases hv : Bus.read m.bus addr w.bytes with
    | error fault => rw [hv] at h; cases h
    | ok v' =>
      rw [hv] at h
      cases h
      exact hbus addr w v hv

/-! ## Cores -/

namespace Core

/-- The cores there are: without temporaries, or with those that were written, whatever else has
changed. -/
inductive Attained : Core → Prop
  | fresh {c : Core} (h : c.temps = []) : Attained c
  | write {c : Core} (h : Attained c) (r : Register) (v : Value) : Attained (c.write r v)
  | edit {c c' : Core} (h : Attained c) (htemps : c'.temps = c.temps) : Attained c'

/-- A write makes at most one temporary, which is cut. -/
theorem temps_write (c : Core) (r : Register) (v : Value) :
    (c.write r v).temps = c.temps ∨
      (c.write r v).temps = (r.canonical, r.width.cut v) :: c.temps := by
  unfold write
  rw [← r.width_canonical]
  cases r.canonical with
  | temp n => exact .inr rfl
  | tempWide n => exact .inr (by rw [Register.width, Width.cut_double])
  | _ => exact .inl rfl

namespace Attained

variable {c : Core}

theorem holds_temp (h : c.Attained) {x : Register} {v : Value} (hv : (x, v) ∈ c.temps) :
    x.width.Holds v := by
  induction h with
  | fresh hnone => rw [hnone] at hv; cases hv
  | @write c _ r u ih =>
    obtain hsame | hadded := c.temps_write r u
    · exact ih (hsame ▸ hv)
    · rw [hadded, List.mem_cons] at hv
      obtain heq | hv := hv
      · cases heq
        rw [Register.width_canonical]
        exact Width.holds_cut _ u
      · exact ih hv
  | edit _ htemps ih => exact ih (htemps ▸ hv)

theorem holds_lookup (h : c.Attained) (x : Register) :
    x.width.Holds ((c.temps.lookup x).getD 0) := by
  cases hv : c.temps.lookup x with
  | none => exact Nat.two_pow_pos _
  | some v =>
    obtain ⟨before, after, htemps, -⟩ := List.lookup_eq_some_iff.1 hv
    exact h.holds_temp (by simp [htemps])

/-- A register holds no more bits than it has. -/
theorem holds_read (h : c.Attained) (r : Register) : r.width.Holds (c.read r) := by
  rw [← r.width_canonical, read]
  cases r.canonical with
  | e n | p n => exact Width.holds_double _
  | temp n => exact h.holds_lookup (.temp n)
  | tempWide n => exact h.holds_lookup (.tempWide n)
  | _ => exact Width.holds_word _

theorem setInterrupts (h : c.Attained) (on : Bool) : (c.setInterrupts on).Attained :=
  h.write (.csfr icr) _

theorem foldl_write (h : c.Attained) (words : List (Register × Word)) :
    (words.foldl (fun c (r, w) => c.write r (w.setWidth 64)) c).Attained := by
  induction words generalizing c with
  | nil => exact h
  | cons w words ih => exact ih (h.write ..)

theorem loadContext (h : c.Attained) (kind : ContextKind) (words : Vector Word 16) :
    (c.loadContext kind words).Attained := by
  unfold Core.loadContext
  rw [← Vector.foldl_toList, Vector.toList_zip]
  exact h.foldl_write _

end Attained

end Core

namespace Machine

variable {β : Type} {m : Machine β}

theorem attained_restore (h : m.core.Attained) (kind : ContextKind) :
    (m.restore kind).1.core.Attained := by
  unfold restore Core.restoreContext
  cases m.core.frames with
  | nil => exact h
  | cons frame frames =>
    have hpopped : Core.Attained { m.core with frames } := h.edit rfl
    exact hpopped.loadContext kind frame.words

variable [Bus β]

theorem attained_loadRegisters (h : m.core.Attained) (addr : Address) (rs : List Register) :
    (m.loadRegisters addr rs).1.core.Attained := by
  fun_induction loadRegisters m addr rs with
  | case1 | case3 => exact h
  | case2 m addr r rs v hv ih => exact ih (h.write r v)

theorem attained_intrinsic (h : m.core.Attained) (pc : Address) (i : Intrinsic)
    (outputs : List Register) (args : List Value) :
    (m.intrinsic pc i outputs args).1.core.Attained := by
  cases i with
  | saveUpperContext | saveLowerContext => exact h.edit rfl
  | restoreUpperContext | restoreLowerContext => exact attained_restore h _
  | storeUpperContext | storeLowerContext => exact h.edit (congrArg Core.temps core_storeRegisters)
  | loadUpperContext | loadLowerContext => exact attained_loadRegisters h ..
  | bisr =>
    have hsaved : (m.core.saveContext .lower).Attained := h.edit rfl
    exact (hsaved.write (.csfr Core.icr) _).setInterrupts true
  | mfcr | mtcr | bitReverseStep | parity | bmerge | bsplit =>
    cases outputs with
    | nil => exact h
    | cons r rs => exact h.write r _
  | enableInterrupts | disableInterrupts | restoreInterrupts => exact h.setInterrupts _
  | disableInterruptsSaving =>
    cases outputs with
    | nil => exact h.setInterrupts false
    | cons r rs => exact (h.setInterrupts false).write r _
  | _ => exact h

end Machine

/-- A statement goes from attained cores to attained ones, whatever it evaluates to. -/
theorem Stmt.attained_exec {β : Type} [Bus β] {m : Machine β} (h : m.core.Attained) (pc : Address)
    (stmt : Stmt) : (stmt.exec pc m).1.core.Attained := by
  cases stmt with
  | setReg r value =>
    simp only [exec]
    split
    · exact h.write r _
    · exact h
  | jump target | call target | ret target =>
    simp only [exec]
    split
    · exact h.write .pc _
    · exact h
  | setFlag f value =>
    simp only [exec]
    split
    · exact h.edit rfl
    · exact h
  | store w addr value =>
    simp only [exec]
    split
    · exact h
    · split
      · exact h
      · exact h.edit (congrArg Core.temps Machine.core_store)
  | branch => simp only [exec]; split <;> exact h
  | intrinsic i outputs inputs =>
    simp only [exec]
    split
    · exact Machine.attained_intrinsic h ..
    · exact h
  | goto | mark | nop | undefined => exact h

namespace Machine

variable {β : Type} [Bus β] {m : Machine β}

theorem attained_run (h : m.core.Attained) (pc : Address) (code : List Stmt) (fuel : Nat) :
    (m.run pc code fuel code).1.core.Attained :=
  run_keeps (P := fun m => m.core.Attained) (fun stmt _ _ h => stmt.attained_exec h pc)
    (List.Subset.refl code) h

theorem attained_step (h : m.core.Attained) (isa : Isa) : (m.step isa).1.core.Attained := by
  unfold step
  dsimp only
  split
  · exact h
  · split
    · exact h
    · unfold perform
      split
      · exact attained_run (.fresh rfl) ..
      · exact h.edit rfl

end Machine

/-! ## Expressions -/

namespace Expr

variable {β : Type} [Bus β] {m : Machine β} {e : Expr} {v : Value}

theorem exists_of_bind {ε α γ : Type} {x : Except ε α} {f : α → Except ε γ} {b : γ}
    (h : x >>= f = .ok b) : ∃ a, x = .ok a ∧ f a = .ok b := by
  cases x with
  | ok a => exact ⟨a, rfl, h⟩
  | error => cases h

/-- The value of an expression fits its width. -/
theorem holds_eval (hbus : ReadsFit m.bus) (hcore : m.core.Attained) (h : e.eval m = .ok v) :
    e.width.Holds v := by
  cases e with
  | const w value => cases h; exact w.holds_cut value
  | reg r => cases h; exact hcore.holds_read r
  | flag f => cases h; exact Width.holds_truth ..
  | load w addr =>
    obtain ⟨a, -, hload⟩ := exists_of_bind h
    exact Machine.holds_load hbus hload
  | unary op w arg | extend s w arg | low w arg =>
    obtain ⟨a, -, hcut⟩ := exists_of_bind h
    cases hcut
    exact w.holds_cut _
  | binary op w lhs rhs =>
    obtain ⟨a, -, hrest⟩ := exists_of_bind h
    obtain ⟨b, -, hcut⟩ := exists_of_bind hrest
    cases hcut
    exact w.holds_cut _
  | compare op w lhs rhs =>
    obtain ⟨a, -, hrest⟩ := exists_of_bind h
    obtain ⟨b, -, htruth⟩ := exists_of_bind hrest
    cases htruth
    exact Width.holds_truth ..
  | floatStatus f op args =>
    obtain ⟨vs, -, htruth⟩ := exists_of_bind h
    cases htruth
    exact Width.holds_truth ..

theorem eval_zext {w : Width} (h : e.eval m = .ok v) (hfits : e.width.Holds v)
    (hle : e.width.bytes ≤ w.bytes) : (zext w e).eval m = .ok v := by
  simp only [zext, eval, h, bind, Except.bind]
  exact congrArg Except.ok (hfits.cut_eq hle)

theorem eval_sext {w : Width} (h : e.eval m = .ok v) :
    (sext w e).eval m = .ok (w.cut (e.width.spread v)) := by
  simp only [sext, eval, h, bind, Except.bind]
  rfl

end Expr

/-- Evaluation respects widths. If memory reads no more bytes than it is asked for, the value of an
expression is below two to the power of the bits of the expression's width, and evaluating it
changes nothing: a branch on it leaves the machine as it is. To extend the expression to a wider
width with zeros keeps its number, and to extend it with its sign keeps its signed number. Runs of
statements and steps only lead to cores of this kind. -/
theorem values_fit_widths {β : Type} [Bus β] {m : Machine β} (hbus : ReadsFit m.bus)
    (hcore : m.core.Attained) :
    (∀ (e : Expr) (v : Value), e.eval m = .ok v →
      v.toNat < 2 ^ (8 * e.width.bytes) ∧
      (∀ pc yes no, ((Stmt.branch e yes no).exec pc m).1 = m) ∧
      ∀ w : Width, e.width.bytes ≤ w.bytes →
        (Expr.zext w e).eval m = .ok v ∧
        ∃ v', (Expr.sext w e).eval m = .ok v' ∧ w.signed v' = e.width.signed v) ∧
    (∀ pc code fuel, (m.run pc code fuel code).1.core.Attained) ∧
    ∀ isa, (m.step isa).1.core.Attained := by
  refine ⟨fun e v h => ?_, Machine.attained_run hcore, Machine.attained_step hcore⟩
  have hfits : e.width.Holds v := Expr.holds_eval hbus hcore h
  refine ⟨hfits, fun pc yes no => ?_, fun w hle => ⟨Expr.eval_zext h hfits hle, ?_⟩⟩
  · simp only [Stmt.exec, h]
  · exact ⟨_, Expr.eval_sext h, Width.signed_cut_spread v hle⟩

/-- The half word at the address in a temporary. -/
def pointedHalf : Expr := .load .half (.reg (.temp 0))

/-- A core that has written an address to a temporary, with a bit too many. -/
def pointing : Core := Core.write {} (.temp 0) 0x100000010

def minusSixteen : Store := (Store.empty.put 0 0xF0).put 1 0xFF

theorem values_fit_widths_half :
    (pointedHalf.eval (β := Window) ⟨pointing, { base := 16, size := 2, bytes := minusSixteen }⟩ =
        .ok 0xFFF0 ∧
      ∃ v, (Expr.sext .word pointedHalf).eval (β := Window)
          ⟨pointing, { base := 16, size := 2, bytes := minusSixteen }⟩ = .ok v ∧
        Width.word.signed v = -16) ∧
    (0xFFF0 : Value).toNat < 2 ^ 16 ∧
    (Expr.zext .word pointedHalf).eval (β := Scattered)
      ⟨pointing, { base := 16, size := 2, bytes := minusSixteen }⟩ = .ok 0xFFF0 := by
  have hcore : pointing.Attained := .write (.fresh rfl) (.temp 0) _
  have hwindow : pointedHalf.eval (β := Window)
      ⟨pointing, { base := 16, size := 2, bytes := minusSixteen }⟩ = .ok 0xFFF0 := by decide +kernel
  have hscattered : pointedHalf.eval (β := Scattered)
      ⟨pointing, { base := 16, size := 2, bytes := minusSixteen }⟩ = .ok 0xFFF0 := by decide +kernel
  obtain ⟨-, -, hsigned⟩ := (values_fit_widths (Window.readsFit _) hcore).1 _ _ hwindow
  obtain ⟨hlt, -, hnumber⟩ := (values_fit_widths (Scattered.readsFit _) hcore).1 _ _ hscattered
  exact ⟨⟨hwindow, (hsigned .word (by decide)).2⟩, hlt, (hnumber .word (by decide)).1⟩

end Tricore
