import Mathlib
import Tricore.Proofs.Divisions
import Tricore.Proofs.Exchanges
import Tricore.Proofs.Shifts

/-!
# Bit fields

A field has a position and a width of five bits each. Both are constants, or the position is in a
data register, or a pair of data registers holds both (`FieldForm`). What constants stand for is
computed when an instruction is lifted, and what registers hold when it is executed; both ways leave
the same result (`field_forms_agree`), unless a field is extracted that reaches beyond the word. The
field is brought to the top of the word first, and there constants shift by nothing while registers
shift everything out (`BitField.raised`).
-/

namespace Tricore

/-! ## Reference -/

/-- A shift to the right, with copies of the sign or with zeros. -/
def Sign.shiftRight (s : Sign) (x : Word) (k : Nat) : Word :=
  match s with
  | signed => x.sshiftRight k
  | unsigned => x >>> k

/-- How an instruction names a field. -/
inductive FieldForm where
  | immediate
  /-- The position is in a data register. -/
  | register
  /-- A pair of data registers holds the position and the width. -/
  | pair
  deriving DecidableEq

@[ext]
structure BitField where
  pos : BitVec 5
  width : BitVec 5
  deriving DecidableEq

namespace BitField

variable (f : BitField)

/-- The field ends within a word. -/
def Fits : Prop := f.pos.toNat + f.width.toNat ≤ 32

instance : Decidable f.Fits := inferInstanceAs (Decidable (_ ≤ _))

def mask : Word := ((1 : Word) <<< f.width.toNat - 1) <<< f.pos.toNat

/-- A word with the low bits of another one in place of the field. -/
def inserted (x s : Word) : Word := merged x (s <<< f.pos.toNat) f.mask

/-- A word with the end of the field moved to its top. -/
def raised (form : FieldForm) (x : Word) : Word :=
  if f.Fits then x <<< (32 - (f.pos.toNat + f.width.toNat))
  else if form = .immediate then x
  else 0

def extracted (form : FieldForm) (sign : Sign) (x : Word) : Word :=
  sign.shiftRight (f.raised form x) (32 - f.width.toNat)

end BitField

/-- The operands name the field in this form; of a register the low five bits count. -/
inductive FieldForm.Names (c : Core) (f : BitField) : FieldForm → List Operand → Prop where
  | immediate : Names c f .immediate [.imm f.pos.toNat, .imm f.width.toNat]
  | register {n : Nat} (hpos : (Operand.word c (.reg (.d n))).setWidth 5 = f.pos) :
      Names c f .register [.reg (.d n), .imm f.width.toNat]
  | pair {n : Nat} (hpos : (Operand.word c (.reg (.d n))).setWidth 5 = f.pos)
      (hwidth : (Operand.word c (.reg (.d (n + 1)))).setWidth 5 = f.width) :
      Names c f .pair [.reg (.e n)]

/-- What the name of a bit-field instruction stands for. -/
inductive FieldOp where
  | extract (sign : Sign)
  | insert
  /-- The mask of the field, and a word moved to it. -/
  | mask
  deriving DecidableEq

/-- What a bit-field instruction works on. -/
structure FieldUse where
  dst : Register
  sources : List Word
  form : FieldForm
  field : BitField

namespace FieldOp

def named : List (String × FieldOp) :=
  [("extr", extract .signed), ("extr.u", extract .unsigned), ("insert", insert), ("imask", mask)]

def action : FieldOp → Action
  | extract sign => .extract sign
  | insert => .insert
  | mask => .insertMask

def target : FieldOp → Nat → Register
  | extract _ | insert => .d
  | mask => .e

/-- How many sources there are. -/
def arity : FieldOp → Nat
  | extract _ | mask => 1
  | insert => 2

/-- The operands are a destination, the sources, and the field. -/
def Reads (op : FieldOp) (c : Core) (operands : List Operand) (u : FieldUse) : Prop :=
  ∃ sources field, operands = .reg u.dst :: (sources ++ field) ∧ sources.length = op.arity ∧
    sources.map (·.word c) = u.sources ∧ u.form.Names c u.field field

/-- What is left at the destination. -/
def result? (u : FieldUse) : FieldOp → Option Value
  | extract sign =>
    match u.sources with
    | [x] => some ((u.field.extracted u.form sign x).setWidth 64)
    | _ => none
  | insert =>
    match u.sources with
    | [x, s] => some ((u.field.inserted x s).setWidth 64)
    | _ => none
  | mask =>
    match u.sources with
    | [s] => some (u.field.mask ++ s <<< u.field.pos.toNat)
    | _ => none

end FieldOp

/-- The step completes and leaves the result of a bit-field instruction. -/
def Machine.Performs {β : Type} [Bus β] (isa : Isa) (m : Machine β) (op : FieldOp) (u : FieldUse) :
    Prop :=
  (m.step isa).2 = .done ∧ op.result? u = some ((m.step isa).1.core.read u.dst)

/-! ## Bits -/

namespace BitField

variable (f : BitField)

theorem toNat_word (k : BitVec 5) : (k.setWidth 32 : Word).toNat = k.toNat :=
  BitVec.toNat_setWidth_of_le (by decide)

/-- A count that is folded stops at nothing. -/
theorem raised_immediate (x : Word) :
    f.raised .immediate x = x <<< (32 - (f.pos.toNat + f.width.toNat)) := by
  by_cases hfits : f.Fits
  · rw [raised, if_pos hfits]
  · have hzero : 32 - (f.pos.toNat + f.width.toNat) = 0 := by
      unfold Fits at hfits
      omega
    rw [raised, if_neg hfits, if_pos rfl, hzero, BitVec.shiftLeft_zero]

/-- A count that is computed wraps, and then it is as large as the word or larger. -/
theorem raised_dynamic {form : FieldForm} (hform : form ≠ .immediate) (x : Word) :
    f.raised form x =
      x <<< ((32 : Word) - f.pos.setWidth 32 - f.width.setWidth 32).toNat := by
  have hpos := toNat_word f.pos
  have hwidth := toNat_word f.width
  have hp := f.pos.isLt
  have hw := f.width.isLt
  by_cases hfits : f.Fits
  · have hcount : ((32 : Word) - f.pos.setWidth 32 - f.width.setWidth 32).toNat =
        32 - (f.pos.toNat + f.width.toNat) := by
      unfold Fits at hfits
      bv_omega
    rw [raised, if_pos hfits, hcount]
  · have hcount : 32 ≤ ((32 : Word) - f.pos.setWidth 32 - f.width.setWidth 32).toNat := by
      unfold Fits at hfits
      bv_omega
    rw [raised, if_neg hfits, if_neg hform, BitVec.shiftLeft_eq_zero hcount]
    rfl

theorem toNat_down :
    ((32 : Word) - f.width.setWidth 32).toNat = 32 - f.width.toNat := by
  have hwidth := toNat_word f.width
  have hw := f.width.isLt
  bv_omega

end BitField

theorem and_five (x : Word) : x &&& (31 : Value).setWidth 32 = (x.setWidth 5).setWidth 32 := by
  refine BitVec.eq_of_toNat_eq ?_
  have hones : ((31 : Value).setWidth 32).toNat = 2 ^ 5 - 1 := rfl
  rw [BitVec.toNat_and, hones, Nat.and_two_pow_sub_one_eq_mod, BitField.toNat_word,
    BitVec.toNat_setWidth]

/-! ## Expressions -/

namespace Lift

variable {β : Type} [Bus β] {m : Machine β} {n : Nat} {f : BitField} {form : FieldForm}
  {pos width : Amount}

/-- The amounts of a field, once its operands are read. -/
inductive Located (m : Machine β) (n : Nat) (f : BitField) :
    FieldForm → Amount → Amount → Prop where
  | immediate : Located m n f .immediate (.static f.pos.toNat) (.static f.width.toNat)
  | register {pos : Expr} (hpos : pos.Yields m n (f.pos.setWidth 32)) :
      Located m n f .register (.dynamic pos) (.static f.width.toNat)
  | pair {pos width : Expr} (hpos : pos.Yields m n (f.pos.setWidth 32))
      (hwidth : width.Yields m n (f.width.setWidth 32)) :
      Located m n f .pair (.dynamic pos) (.dynamic width)

theorem yields_static (k : BitVec 5) :
    (Amount.static k.toNat).expr.Yields m n (k.setWidth 32) := by
  have hconst : (Amount.static k.toNat).expr.Yields m n ((BitVec.ofNat 64 k.toNat).setWidth 32) :=
    .const _ rfl
  rwa [BitVec.ofNat_toNat, BitVec.setWidth_setWidth_of_le _ (by decide)] at hconst

namespace Located

variable (h : Located m n f form pos width)
include h

theorem pos_yields : pos.expr.Yields m n (f.pos.setWidth 32) := by
  cases h with
  | immediate => exact yields_static f.pos
  | register hpos | pair hpos => exact hpos

theorem width_yields : width.expr.Yields m n (f.width.setWidth 32) := by
  cases h with
  | immediate | register => exact yields_static f.width
  | pair _ hwidth => exact hwidth

theorem mask : (fieldMask pos width).Yields m n f.mask := by
  have hword : Width.word.bits = 32 := rfl
  have hones := ((Expr.Yields.const 1 hword).shl h.width_yields hword).sub (.const 1 hword) hword
  have hmask := hones.shl h.pos_yields hword
  rw [BitField.toNat_word, BitField.toNat_word] at hmask
  cases h with
  | register | pair => exact hmask
  | immediate =>
    -- The constant is the same mask: no width is 32, and no position is.
    have hfold : fieldMask (.static f.pos.toNat) (.static f.width.toNat) = .word f.mask := by
      have hp := f.pos.isLt
      have hw := f.width.isLt
      rw [fieldMask, if_neg (by omega), Nat.mod_eq_of_lt hp]
      rfl
    rw [hfold]
    have hconst : (Expr.word f.mask).Yields m n ((f.mask.setWidth 64).setWidth 32) := .const _ rfl
    rwa [BitVec.setWidth_setWidth_of_le _ (by decide), BitVec.setWidth_eq] at hconst

theorem placed {src : Expr} {s : Word} (hs : src.Yields m n s) :
    (Expr.shl .word src pos.expr).Yields m n (s <<< f.pos.toNat) := by
  have hshift := hs.shl h.pos_yields (w := .word) rfl
  rwa [BitField.toNat_word] at hshift

end Located

/-- The operator for a shift to the right. -/
def downOp : Sign → BinOp
  | .signed => .asr
  | .unsigned => .lsr

theorem yields_down (sign : Sign) {a b : Expr} {x y : Word} (ha : a.Yields m n x)
    (hb : b.Yields m n y) :
    (Expr.binary (downOp sign) .word a b).Yields m n (sign.shiftRight x y.toNat) := by
  cases sign with
  | signed => exact ha.asr hb rfl
  | unsigned => exact ha.lsr hb rfl

/-! ## Statements -/

/-- An extraction with counts that are known. -/
def setFolded (sign : Sign) (dst : Register) (src : Expr) (pos width : Nat) : Emit Unit :=
  let up := Expr.const .word (.ofNat 64 (32 - (pos + width)))
  let down := Expr.const .word (.ofNat 64 (32 - width))
  set dst (.binary (downOp sign) .word (.shl .word src up) down)

/-- An extraction that computes its counts. -/
def setComputed (sign : Sign) (dst : Register) (src pos width : Expr) : Emit Unit := do
  let width ← temp width
  let up := Expr.sub .word (.sub .word (.const .word 32) pos) width
  let down := Expr.sub .word (.const .word 32) width
  set dst (.binary (downOp sign) .word (.shl .word src up) down)

/-- The statements that extract a field, with the operands read. -/
def setExtracted (sign : Sign) (dst : Register) (src : Expr) : Amount → Amount → Emit Unit
  | .static pos, .static width => setFolded sign dst src pos width
  | pos, width => setComputed sign dst src pos.expr width.expr

/-- The statements that insert a field. -/
def setInserted (dst : Register) (base src : Expr) (pos width : Amount) : Emit Unit := do
  let mask ← temp (fieldMask pos width)
  let placed := Expr.and .word (.shl .word src pos.expr) mask
  set dst (.or .word (.and .word base (.not .word mask)) placed)

section Runs

variable {pc : Address} {s : Supply} {dst : Nat} {src : Expr} {x : Word}

theorem yields_small {k : Nat} (hk : k ≤ 32) :
    (Expr.const .word (.ofNat 64 k)).Yields m n (BitVec.ofNat 32 k) ∧
      (BitVec.ofNat 32 k).toNat = k := by
  have hconst : (Expr.const .word (.ofNat 64 k)).Yields m n ((BitVec.ofNat 64 k).setWidth 32) :=
    .const _ rfl
  rw [BitVec.setWidth_ofNat_of_le (by decide)] at hconst
  exact ⟨hconst, by rw [BitVec.toNat_ofNat, Nat.mod_eq_of_lt (by omega)]⟩

theorem runs_setFolded (sign : Sign) (hsrc : src.Yields m s.temps x) :
    (setFolded sign (.d dst) src f.pos.toNat f.width.toNat).Runs pc s m fun _ _ m' =>
      m'.core.read (.d dst) = (f.extracted .immediate sign x).setWidth 64 := by
  obtain ⟨hup, hcount⟩ := yields_small (m := m) (n := s.temps)
    (Nat.sub_le 32 (f.pos.toNat + f.width.toNat))
  obtain ⟨hdown, hcount'⟩ := yields_small (m := m) (n := s.temps) (Nat.sub_le 32 f.width.toNat)
  have hvalue := yields_down sign (hsrc.shl hup (w := .word) rfl) hdown
  rw [hcount, hcount', ← f.raised_immediate] at hvalue
  exact .set hvalue ((Register.Takes.word dst).read_write _ _)

theorem runs_setComputed (sign : Sign) (hform : form ≠ .immediate) {pos width : Expr}
    (hsrc : src.Yields m s.temps x) (hpos : pos.Yields m s.temps (f.pos.setWidth 32))
    (hwidth : width.Yields m s.temps (f.width.setWidth 32)) :
    (setComputed sign (.d dst) src pos width).Runs pc s m fun _ _ m' =>
      m'.core.read (.d dst) = (f.extracted form sign x).setWidth 64 := by
  have hword : Width.word.bits = 32 := rfl
  refine .bind (.temp hwidth (by decide) fun m₁ kept hgrows _ hkept => ?_)
  have hsrc := hsrc.mono hgrows (Nat.le_succ _)
  have hpos := hpos.mono hgrows (Nat.le_succ _)
  have hup := ((Expr.Yields.const 32 hword).sub hpos hword).sub hkept hword
  have hdown := (Expr.Yields.const 32 hword).sub hkept hword
  have hvalue := yields_down sign (hsrc.shl hup hword) hdown
  rw [BitField.extracted, f.raised_dynamic hform x, ← f.toNat_down]
  exact .set hvalue ((Register.Takes.word dst).read_write _ _)

theorem runs_setExtracted (sign : Sign) (h : Located m s.temps f form pos width)
    (hsrc : src.Yields m s.temps x) :
    (setExtracted sign (.d dst) src pos width).Runs pc s m fun _ _ m' =>
      m'.core.read (.d dst) = (f.extracted form sign x).setWidth 64 := by
  have hpos := h.pos_yields
  have hwidth := h.width_yields
  cases h with
  | immediate => exact runs_setFolded sign hsrc
  | register | pair => exact runs_setComputed sign (by decide) hsrc hpos hwidth

theorem runs_setInserted {base : Expr} {y : Word} (h : Located m s.temps f form pos width)
    (hbase : base.Yields m s.temps x) (hsrc : src.Yields m s.temps y) :
    (setInserted (.d dst) base src pos width).Runs pc s m fun _ _ m' =>
      m'.core.read (.d dst) = (f.inserted x y).setWidth 64 := by
  have hword : Width.word.bits = 32 := rfl
  refine .bind (.temp h.mask (by decide) fun m₁ mask hgrows _ hmask => ?_)
  have hplaced := (h.placed hsrc).mono hgrows (Nat.le_succ _)
  have hbase := hbase.mono hgrows (Nat.le_succ _)
  exact .set ((hbase.and (hmask.not hword) hword).or (hplaced.and hmask hword) hword)
    ((Register.Takes.word dst).read_write _ _)

theorem runs_setMask (h : Located m s.temps f form pos width) (hsrc : src.Yields m s.temps x) :
    (set (.e dst) (.pair (fieldMask pos width) (.shl .word src pos.expr))).Runs pc s m
      fun _ _ m' => m'.core.read (.e dst) = f.mask ++ x <<< f.pos.toNat := by
  refine .set (h.mask.pair (h.placed hsrc)) ?_
  rw [BitVec.setWidth_eq]
  exact Core.read_write_e _ _ _

end Runs

/-! ## Operands -/

theorem amount_of_register (m : Machine β) (i : Instruction) (k n : Nat) :
    (Amount.ofRegister (.d k)).expr.Yields (m.start i) n
      (((Operand.word m.core (.reg (.d k))).setWidth 5).setWidth 32) := by
  rw [← and_five]
  exact (Instruction.yields_data m i k n).and (.const 31 rfl) rfl

theorem toNat_ofInt_five (k : BitVec 5) : (BitVec.ofInt 32 k.toNat).toNat = k.toNat := by
  rw [BitVec.ofInt_natCast, BitVec.toNat_ofNat, Nat.mod_eq_of_lt (by omega)]

/-- The amounts of a field that comes after other operands. -/
theorem Source.field_of {s : Source} (before : List Operand) {field : List Operand}
    (hs : s.operands = before ++ field) (m : Machine β) (i : Instruction)
    (hnames : form.Names m.core f field) :
    ∃ pos width, s.field before.length = .ok (pos, width) ∧
      ∀ n, Located (m.start i) n f form pos width := by
  cases hnames with
  | immediate =>
    refine ⟨_, _, ?_, fun n => .immediate⟩
    rw [Source.field, Source.amount, Source.amount,
      Source.operand_of before.length hs (o := .imm f.pos.toNat) (by simp),
      Source.operand_of (before.length + 1) hs (o := .imm f.width.toNat) (by simp)]
    simp only [bind, Except.bind, toNat_ofInt_five]
    rfl
  | @register k hpos =>
    refine ⟨_, _, ?_, fun n => .register (hpos ▸ amount_of_register m i k n)⟩
    rw [Source.field, Source.amount, Source.amount,
      Source.operand_of before.length hs (o := .reg (.d k)) (by simp),
      Source.operand_of (before.length + 1) hs (o := .imm f.width.toNat) (by simp)]
    simp only [bind, Except.bind, toNat_ofInt_five]
    rfl
  | @pair k hpos hwidth =>
    refine ⟨_, _, ?_, fun n => .pair (hpos ▸ amount_of_register m i k n)
      (hwidth ▸ amount_of_register m i (k + 1) n)⟩
    rw [Source.field, Source.operand_of before.length hs (o := .reg (.e k)) (by simp)]
    rfl

end Lift

/-- The operands of a field in a row, in the three forms. -/
def FieldForm.kinds : List (List OperandKind) :=
  [[.position, .width], [.data .d, .width], [.dataPair .d]]

namespace FieldOp

def targetKind : FieldOp → OperandKind
  | extract _ | insert => .data .c
  | mask => .dataPair .c

def sourceKinds : FieldOp → List (List OperandKind)
  | extract _ => [[.data .a]]
  | insert => [[.data .a, .data .b], [.data .a, .unsigned]]
  | mask => [[.data .b], [.unsigned]]

end FieldOp

theorem Opcode.field_rows : ∀ g ∈ table, ∀ r ∈ g.rows, ∀ p ∈ FieldOp.named,
    r.mnemonic = p.1 → r.action = p.2.action ∧
      ∃ sources ∈ p.2.sourceKinds, ∃ field ∈ FieldForm.kinds,
        r.operands = p.2.targetKind :: (sources ++ field) := by
  decide +kernel

namespace FieldOp

variable {format : Format} {fields : Fields} {addr : Address}

theorem length_sourceKinds (op : FieldOp) : ∀ ks ∈ op.sourceKinds, ks.length = op.arity := by
  cases op <;> simp [sourceKinds, arity]

theorem shape_sourceKinds (op : FieldOp) :
    ∀ ks ∈ op.sourceKinds, ∀ k ∈ ks, k.shape = .data ∨ k.shape = .imm := by
  cases op <;> simp [sourceKinds, OperandKind.shape]

theorem target_of_resolve {op : FieldOp} {o : Operand}
    (h : op.targetKind.resolve format fields addr = .ok o) : ∃ n, o = .reg (op.target n) := by
  have hshape := OperandKind.shape_of_resolve h
  cases op with
  | extract | insert => exact Operand.exists_data hshape
  | mask => exact Operand.exists_dataPair hshape

end FieldOp

/-- Whatever a row names as a field, the operands name one. -/
theorem FieldForm.exists_names {format : Format} {fields : Fields} {addr : Address}
    {ks : List OperandKind} {os : List Operand} (hks : ks ∈ FieldForm.kinds)
    (h : List.Forall₂ (fun k o => k.resolve format fields addr = .ok o) ks os) (c : Core) :
    ∃ (form : FieldForm) (f : BitField), form.Names c f os := by
  simp only [kinds, List.mem_cons, List.not_mem_nil, or_false] at hks
  rcases hks with rfl | rfl | rfl
  · obtain - | ⟨hpos, - | ⟨hwidth, - | -⟩⟩ := h
    cases hpos
    cases hwidth
    exact ⟨.immediate, ⟨fields.pos, fields.width⟩, .immediate⟩
  · obtain - | ⟨hpos, - | ⟨hwidth, - | -⟩⟩ := h
    cases hpos
    cases hwidth
    exact ⟨.register, ⟨_, fields.width⟩, .register rfl⟩
  · obtain - | ⟨hpair, - | -⟩ := h
    rw [(OperandKind.of_pair_eq_ok hpair).2]
    exact ⟨.pair, ⟨_, _⟩, .pair rfl rfl⟩

theorem FieldForm.Names.unselected {c : Core} {f : BitField} {form : FieldForm} {os : List Operand}
    (h : form.Names c f os) : ∀ o ∈ os, o.shape ≠ .selector := by
  cases h <;> simp [Operand.shape, Register.shape]

theorem FieldForm.Names.unique {c : Core} {f f' : BitField} {form form' : FieldForm}
    {os : List Operand} (h : form.Names c f os) (h' : form'.Names c f' os) :
    form = form' ∧ f = f' := by
  cases h with
  | immediate =>
    generalize hos : [Operand.imm f.pos.toNat, .imm f.width.toNat] = os at h'
    cases h' with
    | immediate => exact ⟨rfl, by simpa [BitField.ext_iff, BitVec.toNat_inj] using hos⟩
    | register | pair => simp at hos
  | register hpos =>
    generalize hos : [Operand.reg _, .imm f.width.toNat] = os at h'
    cases h' with
    | register hpos' =>
      simp only [List.cons.injEq, Operand.reg.injEq, Register.d.injEq, Operand.imm.injEq,
        Nat.cast_inj, BitVec.toNat_inj, and_true] at hos
      obtain ⟨rfl, hwidth⟩ := hos
      exact ⟨rfl, BitField.ext (hpos.symm.trans hpos') hwidth⟩
    | immediate | pair => simp at hos
  | pair hpos hwidth =>
    cases h' with
    | pair hpos' hwidth' =>
      exact ⟨rfl, BitField.ext (hpos.symm.trans hpos') (hwidth.symm.trans hwidth')⟩

/-- The operands say what an instruction works on. -/
theorem FieldOp.Reads.unique {op : FieldOp} {c : Core} {os : List Operand} {u u' : FieldUse}
    (h : op.Reads c os u) (h' : op.Reads c os u') : u = u' := by
  obtain ⟨sources, field, rfl, hlength, hmap, hnames⟩ := h
  obtain ⟨sources', field', hos, hlength', hmap', hnames'⟩ := h'
  obtain ⟨hdst, hrest⟩ := List.cons.inj hos
  obtain ⟨rfl, rfl⟩ := List.append_inj hrest (hlength.trans hlength'.symm)
  obtain ⟨hform, hfield⟩ := hnames.unique hnames'
  cases u
  cases u'
  simp_all

namespace Instruction

variable {β : Type} [Bus β] {isa : Isa} {m : Machine β} {i : Instruction} {op : FieldOp}

theorem operands_of_field (hi : m.instruction? isa = some i)
    (hname : (i.mnemonic, op) ∈ FieldOp.named) :
    i.row.action = op.action ∧ ∃ dst sources field form f,
      i.operands = .reg (op.target dst) :: (sources ++ field) ∧ sources.length = op.arity ∧
      (∀ o ∈ sources, o.IsWord) ∧ FieldForm.Names m.core f form field := by
  obtain ⟨g, hg, hr, raw, addr, hos⟩ := resolved hi
  obtain ⟨ha, ks, hks, kf, hkf, hrow⟩ := Opcode.field_rows g hg i.row hr _ hname rfl
  rw [hrow] at hos
  obtain ⟨target, rest, htarget, hrest, hops⟩ := List.forall₂_cons_left_iff.1 hos
  obtain ⟨dst, rfl⟩ := FieldOp.target_of_resolve htarget
  have hsources := List.forall₂_take ks.length hrest
  have hfield := List.forall₂_drop ks.length hrest
  rw [List.take_left] at hsources
  rw [List.drop_left] at hfield
  obtain ⟨form, f, hnames⟩ := FieldForm.exists_names hkf hfield m.core
  refine ⟨ha, dst, rest.take ks.length, rest.drop ks.length, form, f, hops.trans ?_, ?_,
    fun o ho => ?_, hnames⟩
  · rw [List.take_append_drop]
  · rw [← hsources.length_eq, op.length_sourceKinds ks hks]
  · obtain ⟨k, hk, hresolve⟩ := exists_kind hsources o ho
    rw [Operand.IsWord, OperandKind.shape_of_resolve hresolve]
    exact op.shape_sourceKinds ks hks k hk

section Plans

variable {dst : Nat} {x y : Operand} {sources field : List Operand} {pos width : Lift.Amount}

theorem source_of_field {c : Core} {form : FieldForm} {f : BitField}
    (hops : i.operands = .reg (op.target dst) :: (sources ++ field))
    (hwords : ∀ o ∈ sources, o.IsWord) (hnames : form.Names c f field) :
    (Lift.Source.of i).operands = .reg (op.target dst) :: (sources ++ field) := by
  rw [← hops]
  refine operands_of_unselected fun o ho => ?_
  rw [hops, List.mem_cons, List.mem_append] at ho
  rcases ho with rfl | ho | ho
  · cases op <;> simp [FieldOp.target, Operand.shape, Register.shape]
  · rcases hwords o ho with h | h <;> simp [h]
  · exact hnames.unselected o ho

theorem plan_extract {sign : Sign} (ha : i.row.action = .extract sign)
    (hread : (Lift.Source.of i).operands = .reg (.d dst) :: x :: field) (hx : x.IsWord)
    (hfield : (Lift.Source.of i).field 2 = .ok (pos, width)) :
    i.plan = Lift.emitting (Lift.setExtracted sign (.d dst) x.expr pos width) := by
  rw [Instruction.plan, ha, Lift.plan]
  unfold Lift.Plan.extract
  rw [Lift.Source.reg_of 0 hread rfl, Lift.Source.value_of 1 hread rfl hx.takes, hfield]
  cases pos <;> cases width <;> rfl

theorem plan_insert (ha : i.row.action = .insert)
    (hread : (Lift.Source.of i).operands = .reg (.d dst) :: x :: y :: field) (hx : x.IsWord)
    (hy : y.IsWord) (hfield : (Lift.Source.of i).field 3 = .ok (pos, width)) :
    i.plan = Lift.emitting (Lift.setInserted (.d dst) x.expr y.expr pos width) := by
  rw [Instruction.plan, ha, Lift.plan, Lift.Plan.insert, Lift.Source.reg_of 0 hread rfl,
    Lift.Source.value_of 1 hread rfl hx.takes, Lift.Source.value_of 2 hread rfl hy.takes, hfield]
  rfl

theorem plan_insertMask (ha : i.row.action = .insertMask)
    (hread : (Lift.Source.of i).operands = .reg (.e dst) :: x :: field) (hx : x.IsWord)
    (hfield : (Lift.Source.of i).field 2 = .ok (pos, width)) :
    i.plan = Lift.emitting (Lift.set (.e dst)
      (.pair (Lift.fieldMask pos width) (.shl .word x.expr pos.expr))) := by
  rw [Instruction.plan, ha, Lift.plan, Lift.Plan.insertMask, Lift.Source.reg_of 0 hread rfl,
    Lift.Source.value_of 1 hread rfl hx.takes, hfield]
  rfl

end Plans

theorem step_field {dst : Nat} {sources field : List Operand} {form : FieldForm} {f : BitField}
    (hi : m.instruction? isa = some i) (ha : i.row.action = op.action)
    (hops : i.operands = .reg (op.target dst) :: (sources ++ field))
    (hlength : sources.length = op.arity) (hwords : ∀ o ∈ sources, o.IsWord)
    (hnames : form.Names m.core f field) :
    m.Performs isa op ⟨op.target dst, sources.map (·.word m.core), form, f⟩ := by
  have hread := source_of_field hops hwords hnames
  obtain ⟨pos, width, hfield, hlocated⟩ :=
    Lift.Source.field_of (.reg (op.target dst) :: sources) hread m i hnames
  rw [List.length_cons, hlength] at hfield
  cases op with
  | extract sign =>
    obtain ⟨x, rfl⟩ := List.length_eq_one_iff.1 hlength
    have hx := hwords x (by simp)
    obtain ⟨hdone, hresult⟩ := Machine.step_of_runs hi (plan_extract ha hread hx hfield)
      fun s _ => Lift.runs_setExtracted sign (hlocated _) (hx.yields m i _)
    exact ⟨hdone, congrArg some hresult.symm⟩
  | insert =>
    obtain ⟨x, y, rfl⟩ := List.length_eq_two.1 hlength
    have hx := hwords x (by simp)
    have hy := hwords y (by simp)
    obtain ⟨hdone, hresult⟩ := Machine.step_of_runs hi (plan_insert ha hread hx hy hfield)
      fun s _ => Lift.runs_setInserted (hlocated _) (hx.yields m i _) (hy.yields m i _)
    exact ⟨hdone, congrArg some hresult.symm⟩
  | mask =>
    obtain ⟨x, rfl⟩ := List.length_eq_one_iff.1 hlength
    have hx := hwords x (by simp)
    obtain ⟨hdone, hresult⟩ := Machine.step_of_runs hi (plan_insertMask ha hread hx hfield)
      fun s _ => Lift.runs_setMask (hlocated _) (hx.yields m i _)
    exact ⟨hdone, congrArg some hresult.symm⟩

/-- An instruction does what its operands say. -/
theorem performs_field (hi : m.instruction? isa = some i)
    (hname : (i.mnemonic, op) ∈ FieldOp.named) :
    ∃ u, op.Reads m.core i.operands u ∧ m.Performs isa op u := by
  obtain ⟨ha, dst, sources, field, form, f, hops, hlength, hwords, hnames⟩ :=
    operands_of_field hi hname
  exact ⟨_, ⟨sources, field, hops, hlength, rfl, hnames⟩,
    step_field hi ha hops hlength hwords hnames⟩

end Instruction

/-! ## All forms -/

theorem BitField.raised_congr {f : BitField} {form form' : FieldForm}
    (h : f.Fits ∨ (form = .immediate ↔ form' = .immediate)) (x : Word) :
    f.raised form x = f.raised form' x := by
  unfold raised
  rcases h with hfits | hform
  · rw [if_pos hfits, if_pos hfits]
  · simp only [hform]

/-- Only an extraction depends on the form, and only of a field that does not fit. -/
theorem FieldOp.result?_congr {op : FieldOp} {u u' : FieldUse} (hsources : u.sources = u'.sources)
    (hfield : u.field = u'.field)
    (h : (∃ sign, op = .extract sign) →
      u.field.Fits ∨ (u.form = .immediate ↔ u'.form = .immediate)) :
    op.result? u = op.result? u' := by
  cases op with
  | extract sign =>
    have hraised := BitField.raised_congr (h ⟨sign, rfl⟩)
    simp only [result?, ← hsources, ← hfield, BitField.extracted, hraised]
  | insert | mask => simp only [result?, ← hsources, ← hfield]

/-- Constants, a position in a register and a pair of registers name the same field: the results
are the same, except for constants against registers in the extraction of a field that does not
fit. -/
theorem field_forms_agree {β γ : Type} [Bus β] [Bus γ] (isa isa' : Isa) (m : Machine β)
    (m' : Machine γ) {i i' : Instruction} {op : FieldOp} (hi : m.instruction? isa = some i)
    (hi' : m'.instruction? isa' = some i') (hname : (i.mnemonic, op) ∈ FieldOp.named)
    (hname' : (i'.mnemonic, op) ∈ FieldOp.named) :
    ∃ u u', op.Reads m.core i.operands u ∧ op.Reads m'.core i'.operands u' ∧
      m.Performs isa op u ∧ m'.Performs isa' op u' ∧
      (u.sources = u'.sources → u.field = u'.field →
        ((∃ sign, op = .extract sign) →
          u.field.Fits ∨ (u.form = .immediate ↔ u'.form = .immediate)) →
        (m.step isa).1.core.read u.dst = (m'.step isa').1.core.read u'.dst) := by
  obtain ⟨u, hreads, hperforms⟩ := Instruction.performs_field hi hname
  obtain ⟨u', hreads', hperforms'⟩ := Instruction.performs_field hi' hname'
  refine ⟨u, u', hreads, hreads', hperforms, hperforms', fun hsources hfield hform => ?_⟩
  have hresult := FieldOp.result?_congr hsources hfield hform
  exact Option.some.inj (hperforms.2.symm.trans (hresult.trans hperforms'.2))

/-- `extr d3, d1, 16, 16` and `extr d3, d1, e2`, with more than five bits in both registers. -/
theorem field_forms_agree_upper_half :
    ((sameWords 0xBEEF1230 [0x37, 0x01, 0x50, 0x38]).step .v16).2 = .done ∧
      ((sameWords 0xBEEF1230 [0x17, 0x01, 0x40, 0x32]).step .v16).2 = .done ∧
      ((sameWords 0xBEEF1230 [0x37, 0x01, 0x50, 0x38]).step .v16).1.core.read (.d 3) =
        0xFFFFBEEF ∧
      ((sameWords 0xBEEF1230 [0x37, 0x01, 0x50, 0x38]).step .v16).1.core.read (.d 3) =
        ((sameWords 0xBEEF1230 [0x17, 0x01, 0x40, 0x32]).step .v16).1.core.read (.d 3) := by
  obtain ⟨i, hi, hname, hoperands⟩ :
      ∃ i, (sameWords 0xBEEF1230 [0x37, 0x01, 0x50, 0x38]).instruction? .v16 = some i ∧
        (i.mnemonic, FieldOp.extract .signed) ∈ FieldOp.named ∧
        i.operands = [.reg (.d 3), .reg (.d 1), .imm 16, .imm 16] :=
    ⟨_, rfl, by decide +kernel, by decide +kernel⟩
  obtain ⟨i', hi', hname', hoperands'⟩ :
      ∃ i, (sameWords 0xBEEF1230 [0x17, 0x01, 0x40, 0x32]).instruction? .v16 = some i ∧
        (i.mnemonic, FieldOp.extract .signed) ∈ FieldOp.named ∧
        i.operands = [.reg (.d 3), .reg (.d 1), .reg (.e 2)] :=
    ⟨_, rfl, by decide +kernel, by decide +kernel⟩
  obtain ⟨u, u', hreads, hreads', hperforms, hperforms', hagree⟩ :=
    field_forms_agree .v16 .v16 _ _ hi hi' hname hname'
  have hu : u = ⟨.d 3, [0xBEEF1230], .immediate, ⟨16, 16⟩⟩ :=
    (hoperands ▸ hreads).unique ⟨[.reg (.d 1)], _, rfl, rfl, by decide, .immediate⟩
  have hu' : u' = ⟨.d 3, [0xBEEF1230], .pair, ⟨16, 16⟩⟩ :=
    (hoperands' ▸ hreads').unique
      ⟨[.reg (.d 1)], _, rfl, rfl, by decide, .pair (by decide) (by decide)⟩
  subst hu hu'
  exact ⟨hperforms.1, hperforms'.1, Option.some.inj (hperforms.2.symm.trans (by decide)),
    hagree rfl rfl fun _ => .inl (by decide)⟩

/-- `extr.u d3, d1, 31, 31` and `extr.u d3, d1, e6` on a word with five low ones: the constants
leave four of them, and the registers nothing. -/
theorem extract_beyond_word_depends_on_form :
    ((sameWords 31 [0x37, 0x01, 0xFF, 0x3F]).step .v16).1.core.read (.d 3) = 15 ∧
      ((sameWords 31 [0x17, 0x01, 0x60, 0x36]).step .v16).1.core.read (.d 3) = 0 := by
  decide +kernel

end Tricore
