import Mathlib
import Tricore.Lift

/-!
# Typing of effects

Each node of an expression names the width it works at. `Expr.Typed` and `Stmt.Typed` say that the
operands have the widths that this asks for. `Expr.HasWidth` is the judgement that proofs use: the
expression is typed, has the width, and reads no temporaries but the known ones. There is one rule
for each kind of node and for each idiom, as an equivalence wherever it is one.
-/

namespace Tricore

/-- The argument is of another kind than the result, so its width is not the node's. -/
def UnOp.converts : UnOp → Bool
  | intToFloat | uintToFloat | floatToInt | floatToIntTrunc | floatToUInt | floatToUIntTrunc => true
  | neg | not | clz | floatRsqrt => false

/-- The right operand is a count, which may have any width. -/
def BinOp.shifts : BinOp → Bool
  | shl | lsr | asr => true
  | _ => false

/-- The inputs are addresses. -/
def Intrinsic.takesAddress : Intrinsic → Bool
  | storeLowerContext | storeUpperContext | loadLowerContext | loadUpperContext | cacheWriteback
  | cacheWritebackInvalidate | cacheInvalidate => true
  | _ => false

def Register.isTemp : Register → Bool
  | .temp _ | .tempWide _ => true
  | _ => false

namespace Expr

mutual

/-- The operands of every node have the widths that it asks for. -/
def Typed : Expr → Prop
  | const _ _ | reg _ | flag _ => True
  | load _ addr => Typed addr ∧ addr.width = .word
  | unary op w arg => Typed arg ∧ (op.converts = false → arg.width = w)
  | binary op w lhs rhs =>
    Typed lhs ∧ Typed rhs ∧ lhs.width = w ∧ (op.shifts = false → rhs.width = w)
  | extend _ w arg => Typed arg ∧ arg.width.bytes ≤ w.bytes
  | low w arg => Typed arg ∧ w.bytes ≤ arg.width.bytes
  | compare _ w lhs rhs => Typed lhs ∧ Typed rhs ∧ lhs.width = w ∧ rhs.width = w
  | floatStatus _ _ args => TypedList args

def TypedList : List Expr → Prop
  | [] => True
  | e :: es => Typed e ∧ TypedList es

end

mutual

/-- The registers that an expression reads. -/
def reads : Expr → List Register
  | const _ _ | flag _ => []
  | reg r => [r]
  | load _ e | unary _ _ e | extend _ _ e | low _ e => reads e
  | binary _ _ lhs rhs | compare _ _ lhs rhs => reads lhs ++ reads rhs
  | floatStatus _ _ args => readsList args

def readsList : List Expr → List Register
  | [] => []
  | e :: es => reads e ++ readsList es

end

theorem typedList_iff {es : List Expr} : TypedList es ↔ ∀ e ∈ es, e.Typed := by
  induction es with
  | nil => simp [TypedList]
  | cons e es ih => simp [TypedList, ih]

theorem readsList_eq (es : List Expr) : readsList es = es.flatMap reads := by
  induction es with
  | nil => rfl
  | cons e es ih => simp [readsList, ih]

/-- Typed, of the given width, and reading no temporaries but the known ones. -/
def HasWidth (known : List Register) (w : Width) (e : Expr) : Prop :=
  e.Typed ∧ e.width = w ∧ ∀ r ∈ e.reads, r.isTemp = true → r ∈ known

end Expr

namespace Stmt

/-- Values have the width of what they are written to, conditions and flags are bytes, addresses and
targets are words. -/
def Typed : Stmt → Prop
  | setReg r value => value.Typed ∧ value.width = r.width
  | setFlag _ value => value.Typed ∧ value.width = .byte
  | store w addr value => (addr.Typed ∧ addr.width = .word) ∧ value.Typed ∧ value.width = w
  | jump target | call target | ret target => target.Typed ∧ target.width = .word
  | branch cond _ _ => cond.Typed ∧ cond.width = .byte
  | intrinsic i _ inputs => ∀ e ∈ inputs, e.Typed ∧ (i.takesAddress = true → e.width = .word)
  | goto _ | mark _ | nop | undefined => True

/-- The registers that a statement reads by name. -/
def reads : Stmt → List Register
  | setReg _ e | setFlag _ e | jump e | call e | ret e | branch e _ _ => e.reads
  | store _ addr value => addr.reads ++ value.reads
  | intrinsic _ _ inputs => inputs.flatMap Expr.reads
  | goto _ | mark _ | nop | undefined => []

end Stmt

/-! ## Widths -/

namespace Width

@[simp]
theorem bytes_le_double (w : Width) : w.bytes ≤ double.bytes := by cases w <;> decide

@[simp]
theorem byte_le_bytes (w : Width) : byte.bytes ≤ w.bytes := by cases w <;> decide

@[simp]
theorem half_le_word : half.bytes ≤ word.bytes := by decide

theorem eq_of_bytes {v w : Width} (h : v.bytes = w.bytes) : v = w := by
  cases v <;> cases w <;> first | rfl | cases h

/-- The width of the temporary that a value is kept in. -/
def kept : Width → Width
  | double => double
  | _ => word

@[simp]
theorem kept_byte : byte.kept = word := rfl

@[simp]
theorem kept_half : half.kept = word := rfl

@[simp]
theorem kept_word : word.kept = word := rfl

@[simp]
theorem kept_double : double.kept = double := rfl

end Width

@[simp]
theorem Lane.bytes_le_word (l : Lane) : l.width.bytes ≤ Width.word.bytes := by cases l <;> decide

/-! ## Nodes -/

namespace Expr

variable {known : List Register} {v w : Width} {e l r : Expr}

@[simp]
theorem hasWidth_const {x : Value} : HasWidth known v (.const w x) ↔ w = v := by
  constructor
  · rintro ⟨-, rfl, -⟩
    rfl
  · rintro rfl
    exact ⟨trivial, rfl, by rintro r ⟨⟩⟩

@[simp]
theorem hasWidth_word {x : Word} : HasWidth known v (.word x) ↔ .word = v := hasWidth_const

@[simp]
theorem hasWidth_reg {r : Register} :
    HasWidth known v (.reg r) ↔ r.width = v ∧ (r.isTemp = true → r ∈ known) := by
  constructor
  · rintro ⟨-, rfl, hk⟩
    exact ⟨rfl, hk r (List.mem_singleton.2 rfl)⟩
  · rintro ⟨rfl, hk⟩
    refine ⟨trivial, rfl, fun r' hr' => ?_⟩
    obtain rfl := List.mem_singleton.1 hr'
    exact hk

@[simp]
theorem hasWidth_flag {f : Flag} : HasWidth known v (.flag f) ↔ .byte = v := by
  constructor
  · rintro ⟨-, rfl, -⟩
    rfl
  · rintro rfl
    exact ⟨trivial, rfl, by rintro r ⟨⟩⟩

@[simp]
theorem hasWidth_load : HasWidth known v (.load w e) ↔ w = v ∧ HasWidth known .word e := by
  constructor
  · rintro ⟨⟨ht, hw⟩, rfl, hk⟩
    exact ⟨rfl, ht, hw, hk⟩
  · rintro ⟨rfl, ht, hw, hk⟩
    exact ⟨⟨ht, hw⟩, rfl, hk⟩

theorem hasWidth_unary {op : UnOp} (h : op.converts = false) :
    HasWidth known v (.unary op w e) ↔ w = v ∧ HasWidth known w e := by
  constructor
  · rintro ⟨⟨ht, hw⟩, rfl, hk⟩
    exact ⟨rfl, ht, hw h, hk⟩
  · rintro ⟨rfl, ht, hw, hk⟩
    exact ⟨⟨ht, fun _ => hw⟩, rfl, hk⟩

theorem hasWidth_convert {op : UnOp} (h : op.converts = true) :
    HasWidth known v (.unary op w e) ↔ w = v ∧ ∃ u, HasWidth known u e := by
  constructor
  · rintro ⟨⟨ht, -⟩, rfl, hk⟩
    exact ⟨rfl, e.width, ht, rfl, hk⟩
  · rintro ⟨rfl, u, ht, -, hk⟩
    exact ⟨⟨ht, fun hop => by rw [h] at hop; cases hop⟩, rfl, hk⟩

theorem hasWidth_binary {op : BinOp} (h : op.shifts = false) :
    HasWidth known v (.binary op w l r) ↔
      w = v ∧ HasWidth known w l ∧ HasWidth known w r := by
  constructor
  · rintro ⟨⟨hl, hr, hlw, hrw⟩, rfl, hk⟩
    obtain ⟨hkl, hkr⟩ := List.forall_mem_append.1 hk
    exact ⟨rfl, ⟨hl, hlw, hkl⟩, hr, hrw h, hkr⟩
  · rintro ⟨rfl, ⟨hl, hlw, hkl⟩, hr, hrw, hkr⟩
    exact ⟨⟨hl, hr, hlw, fun _ => hrw⟩, rfl, List.forall_mem_append.2 ⟨hkl, hkr⟩⟩

theorem hasWidth_shift {op : BinOp} (h : op.shifts = true) :
    HasWidth known v (.binary op w l r) ↔
      w = v ∧ HasWidth known w l ∧ ∃ u, HasWidth known u r := by
  constructor
  · rintro ⟨⟨hl, hr, hlw, -⟩, rfl, hk⟩
    obtain ⟨hkl, hkr⟩ := List.forall_mem_append.1 hk
    exact ⟨rfl, ⟨hl, hlw, hkl⟩, r.width, hr, rfl, hkr⟩
  · rintro ⟨rfl, ⟨hl, hlw, hkl⟩, u, hr, -, hkr⟩
    exact ⟨⟨hl, hr, hlw, fun hop => by rw [h] at hop; cases hop⟩, rfl,
      List.forall_mem_append.2 ⟨hkl, hkr⟩⟩

@[simp]
theorem hasWidth_extend {s : Sign} :
    HasWidth known v (.extend s w e) ↔
      w = v ∧ ∃ u, HasWidth known u e ∧ u.bytes ≤ w.bytes := by
  constructor
  · rintro ⟨⟨ht, hle⟩, rfl, hk⟩
    exact ⟨rfl, e.width, ⟨ht, rfl, hk⟩, hle⟩
  · rintro ⟨rfl, u, ⟨ht, rfl, hk⟩, hle⟩
    exact ⟨⟨ht, hle⟩, rfl, hk⟩

@[simp]
theorem hasWidth_low :
    HasWidth known v (.low w e) ↔ w = v ∧ ∃ u, HasWidth known u e ∧ w.bytes ≤ u.bytes := by
  constructor
  · rintro ⟨⟨ht, hle⟩, rfl, hk⟩
    exact ⟨rfl, e.width, ⟨ht, rfl, hk⟩, hle⟩
  · rintro ⟨rfl, u, ⟨ht, rfl, hk⟩, hle⟩
    exact ⟨⟨ht, hle⟩, rfl, hk⟩

@[simp]
theorem hasWidth_compare {op : CmpOp} :
    HasWidth known v (.compare op w l r) ↔
      .byte = v ∧ HasWidth known w l ∧ HasWidth known w r := by
  constructor
  · rintro ⟨⟨hl, hr, hlw, hrw⟩, rfl, hk⟩
    obtain ⟨hkl, hkr⟩ := List.forall_mem_append.1 hk
    exact ⟨rfl, ⟨hl, hlw, hkl⟩, hr, hrw, hkr⟩
  · rintro ⟨rfl, ⟨hl, hlw, hkl⟩, hr, hrw, hkr⟩
    exact ⟨⟨hl, hr, hlw, hrw⟩, rfl, List.forall_mem_append.2 ⟨hkl, hkr⟩⟩

@[simp]
theorem hasWidth_floatStatus {f : Flag} {op : FloatCheck} {args : List Expr} :
    HasWidth known v (.floatStatus f op args) ↔
      .byte = v ∧ ∀ e ∈ args, ∃ u, HasWidth known u e := by
  simp only [HasWidth, Typed, typedList_iff, width, reads, readsList_eq, List.mem_flatMap]
  constructor
  · rintro ⟨ht, rfl, hk⟩
    exact ⟨rfl, fun e he => ⟨e.width, ht e he, rfl, fun r hr => hk r ⟨e, he, hr⟩⟩⟩
  · rintro ⟨rfl, h⟩
    refine ⟨fun e he => ?_, rfl, ?_⟩
    · obtain ⟨u, ht, -⟩ := h e he
      exact ht
    · rintro r ⟨e, he, hr⟩
      obtain ⟨u, -, -, hk⟩ := h e he
      exact hk r hr

/-- An expression has one width. -/
theorem HasWidth.iff (h : HasWidth known w e) : HasWidth known v e ↔ w = v := by
  obtain ⟨ht, rfl, hk⟩ := h
  exact ⟨fun hv => hv.2.1, fun hv => ⟨ht, hv, hk⟩⟩

theorem HasWidth.mono {more : List Register} (h : HasWidth known w e) (hm : known ⊆ more) :
    HasWidth more w e :=
  ⟨h.1, h.2.1, fun r hr ht => hm (h.2.2 r hr ht)⟩

@[simp]
theorem hasWidth_ite {c : Prop} [Decidable c] : HasWidth known v (if c then l else r) ↔
    if c then HasWidth known v l else HasWidth known v r := by
  split <;> rfl

/-! ## Operators by name -/

@[simp]
theorem hasWidth_add : HasWidth known v (.add w l r) ↔
    w = v ∧ HasWidth known w l ∧ HasWidth known w r := hasWidth_binary rfl

@[simp]
theorem hasWidth_sub : HasWidth known v (.sub w l r) ↔
    w = v ∧ HasWidth known w l ∧ HasWidth known w r := hasWidth_binary rfl

@[simp]
theorem hasWidth_mul : HasWidth known v (.mul w l r) ↔
    w = v ∧ HasWidth known w l ∧ HasWidth known w r := hasWidth_binary rfl

@[simp]
theorem hasWidth_and : HasWidth known v (.and w l r) ↔
    w = v ∧ HasWidth known w l ∧ HasWidth known w r := hasWidth_binary rfl

@[simp]
theorem hasWidth_or : HasWidth known v (.or w l r) ↔
    w = v ∧ HasWidth known w l ∧ HasWidth known w r := hasWidth_binary rfl

@[simp]
theorem hasWidth_xor : HasWidth known v (.xor w l r) ↔
    w = v ∧ HasWidth known w l ∧ HasWidth known w r := hasWidth_binary rfl

@[simp]
theorem hasWidth_shl : HasWidth known v (.shl w l r) ↔
    w = v ∧ HasWidth known w l ∧ ∃ u, HasWidth known u r := hasWidth_shift rfl

@[simp]
theorem hasWidth_lsr : HasWidth known v (.lsr w l r) ↔
    w = v ∧ HasWidth known w l ∧ ∃ u, HasWidth known u r := hasWidth_shift rfl

@[simp]
theorem hasWidth_asr : HasWidth known v (.asr w l r) ↔
    w = v ∧ HasWidth known w l ∧ ∃ u, HasWidth known u r := hasWidth_shift rfl

@[simp]
theorem hasWidth_not : HasWidth known v (.not w e) ↔ w = v ∧ HasWidth known w e :=
  hasWidth_unary rfl

@[simp]
theorem hasWidth_neg : HasWidth known v (.neg w e) ↔ w = v ∧ HasWidth known w e :=
  hasWidth_unary rfl

@[simp]
theorem hasWidth_sext : HasWidth known v (.sext w e) ↔
    w = v ∧ ∃ u, HasWidth known u e ∧ u.bytes ≤ w.bytes := hasWidth_extend

@[simp]
theorem hasWidth_zext : HasWidth known v (.zext w e) ↔
    w = v ∧ ∃ u, HasWidth known u e ∧ u.bytes ≤ w.bytes := hasWidth_extend

/-! ## Idioms -/

@[simp]
theorem hasWidth_resize : HasWidth known v (e.resize w) ↔ w = v ∧ ∃ u, HasWidth known u e := by
  unfold resize
  split
  · next hlt =>
    rw [hasWidth_zext]
    refine and_congr_right fun _ => exists_congr fun u => and_iff_left_of_imp fun hu => ?_
    rw [← hu.2.1]
    omega
  · split
    · next hlt =>
      rw [hasWidth_low]
      refine and_congr_right fun _ => exists_congr fun u => and_iff_left_of_imp fun hu => ?_
      rw [← hu.2.1]
      omega
    · next h1 h2 =>
      have heq : e.width = w := Width.eq_of_bytes (by omega)
      constructor
      · intro h
        exact ⟨heq.symm.trans h.2.1, v, h⟩
      · rintro ⟨rfl, u, h⟩
        rwa [← heq, h.2.1]

@[simp]
theorem hasWidth_bit {n : Nat} :
    HasWidth known v (e.bit n) ↔ .byte = v ∧ ∃ u, HasWidth known u e := by
  unfold bit
  by_cases hn : n = 0
  · simp [hn]
  · simp only [hn, if_false, hasWidth_and, hasWidth_low, hasWidth_lsr, hasWidth_const]
    constructor
    · rintro ⟨hv, ⟨-, u, ⟨⟨-, he, -⟩, -⟩⟩, -⟩
      exact ⟨hv, _, he⟩
    · rintro ⟨hv, u, he⟩
      obtain rfl : e.width = u := he.2.1
      exact ⟨hv, by simp [he.iff]⟩

@[simp]
theorem hasWidth_select {c yes no : Expr} :
    HasWidth known v (.select w c yes no) ↔
      w = v ∧ (∃ u, HasWidth known u c) ∧ HasWidth known w yes ∧ HasWidth known w no := by
  simp only [select, hasWidth_xor, hasWidth_and, hasWidth_neg, hasWidth_resize]
  tauto

@[simp]
theorem hasWidth_advanced :
    HasWidth known v e.advanced ↔ .byte = v ∧ ∃ u, HasWidth known u e := by
  simp only [advanced, hasWidth_bit, hasWidth_xor, hasWidth_shl, hasWidth_const]
  constructor
  · rintro ⟨hv, u, -, he, -⟩
    exact ⟨hv, _, he⟩
  · rintro ⟨hv, u, he⟩
    obtain rfl : e.width = u := he.2.1
    exact ⟨hv, by simp [he.iff]⟩

@[simp]
theorem hasWidth_overflow {s : Sign} :
    HasWidth known v (e.overflow w s) ↔ .byte = v ∧ HasWidth known .double e := by
  simp only [overflow, hasWidth_compare, hasWidth_extend, hasWidth_low]
  refine and_congr_right fun _ => and_iff_left_of_imp fun he => ?_
  simp [he.iff]

@[simp]
theorem hasWidth_saturate {s : Sign} :
    HasWidth known v (e.saturate w s) ↔ w = v ∧ HasWidth known .double e := by
  simp [saturate]

theorem hasWidth_lane {lane : Lane} {i : Nat} (he : HasWidth known .word e) :
    HasWidth known lane.width (e.lane lane i) := by
  unfold Expr.lane
  split
  · next h => rwa [h, he.2.1]
  · split
    · simp [he.iff]
    · simp [he.iff]

theorem hasWidth_foldl_or {es : List Expr} (he : HasWidth known w e)
    (h : ∀ x ∈ es, HasWidth known w x) : HasWidth known w (es.foldl (.or w) e) := by
  induction es generalizing e with
  | nil => exact he
  | cons x es ih =>
    refine ih ?_ fun y hy => h y (List.mem_cons_of_mem x hy)
    simp [he, h x List.mem_cons_self]

theorem hasWidth_pack {lane : Lane} {parts : List Expr}
    (h : ∀ e ∈ parts, ∃ u, HasWidth known u e) : HasWidth known .word (.pack lane parts) := by
  have hplaced : ∀ x ∈ parts.mapIdx (placed lane), HasWidth known .word x := by
    intro x hx
    obtain ⟨i, hi, rfl⟩ := List.mem_mapIdx.1 hx
    have hpart := h parts[i] (List.getElem_mem hi)
    unfold placed
    split
    · simpa using hpart
    · simpa using hpart
  unfold pack
  split
  · simp
  · next first rest heq =>
    rw [heq] at hplaced
    exact hasWidth_foldl_or (hplaced first List.mem_cons_self) fun x hx =>
      hplaced x (List.mem_cons_of_mem first hx)

theorem hasWidth_any {es : List Expr} (h : ∀ e ∈ es, HasWidth known .byte e) :
    HasWidth known .byte (.any es) := by
  cases es with
  | nil => simp [any]
  | cons first rest =>
    exact hasWidth_foldl_or (h first List.mem_cons_self) fun x hx =>
      h x (List.mem_cons_of_mem first hx)

@[simp]
theorem hasWidth_highWord : HasWidth known v e.highWord ↔ .word = v ∧ HasWidth known .double e := by
  simp [highWord]

@[simp]
theorem hasWidth_pair : HasWidth known v (.pair l r) ↔
    .double = v ∧ (∃ u, HasWidth known u l) ∧ ∃ u, HasWidth known u r := by
  simp [pair]

@[simp]
theorem hasWidth_aligned {r : Register} : HasWidth known v (.aligned r) ↔
    .word = v ∧ r.width = .word ∧ (r.isTemp = true → r ∈ known) := by
  simp [aligned]

@[simp]
theorem hasWidth_combine {op : LogicOp} : HasWidth known v (.combine op w l r) ↔
    w = v ∧ HasWidth known w l ∧ HasWidth known w r := by
  cases op <;> simp [combine]

@[simp]
theorem hasWidth_fold {acc : Combine} : HasWidth known v (.fold acc l r) ↔
    .word = v ∧ HasWidth known .word l ∧
      ∃ u, HasWidth known u r ∧ u.bytes ≤ Width.word.bytes := by
  cases acc <;> simp [fold]

end Expr

end Tricore
