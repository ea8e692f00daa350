import Mathlib
import Tricore.Proofs.Emission
import Tricore.Proofs.Typing

/-!
# Resources of an emission

What effects draw on: temporaries, labels and registers. `Register.Present` are the registers that a
core has. `Uses` bounds what an emission takes from its supply and says that it reads and names
present registers only; there is one rule for each way to build an emission. Operands whose registers
are present are read to present registers and readable values (`Source.Present`).
-/

namespace Tricore

/-- The core has the register: sixteen of a kind, and pairs from even indices. -/
def Register.Present : Register → Prop
  | .d n | .a n => n < 16
  | .e n | .p n => n < 16 ∧ n % 2 = 0
  | _ => True

instance : DecidablePred Register.Present := fun r => by
  cases r <;> unfold Register.Present <;> infer_instance

theorem Register.Present.halves {r : Register} (h : r.Present) {x : Register × Register}
    (hx : r.halves? = some x) : x.1.Present ∧ x.2.Present := by
  cases r with
  | e n | p n =>
    obtain ⟨hn, he⟩ := h
    cases hx
    exact ⟨hn, show n + 1 < 16 by omega⟩
  | _ => cases hx

/-! ## Expressions -/

namespace Expr

/-- All registers that are read are present. -/
def Readable (e : Expr) : Prop := ∀ r ∈ e.reads, r.Present

variable {w : Width} {e l r : Expr}

@[simp]
theorem readable_const {v : Value} : Readable (.const w v) := fun _ h => nomatch h

@[simp]
theorem readable_word {v : Word} : Readable (.word v) := readable_const

@[simp]
theorem readable_flag {f : Flag} : Readable (.flag f) := fun _ h => nomatch h

@[simp]
theorem readable_reg {r : Register} : Readable (.reg r) ↔ r.Present := by
  simp [Readable, reads]

@[simp]
theorem readable_load : Readable (.load w e) ↔ Readable e := Iff.rfl

@[simp]
theorem readable_unary {op : UnOp} : Readable (.unary op w e) ↔ Readable e := Iff.rfl

@[simp]
theorem readable_binary {op : BinOp} : Readable (.binary op w l r) ↔ Readable l ∧ Readable r :=
  List.forall_mem_append

@[simp]
theorem readable_extend {s : Sign} : Readable (.extend s w e) ↔ Readable e := Iff.rfl

@[simp]
theorem readable_low : Readable (.low w e) ↔ Readable e := Iff.rfl

@[simp]
theorem readable_compare {op : CmpOp} : Readable (.compare op w l r) ↔ Readable l ∧ Readable r :=
  List.forall_mem_append

@[simp]
theorem readable_floatStatus {f : Flag} {op : FloatCheck} {args : List Expr} :
    Readable (.floatStatus f op args) ↔ ∀ e ∈ args, Readable e := by
  simp only [Readable, reads, readsList_eq, List.mem_flatMap]
  constructor
  · intro h e he r hr
    exact h r ⟨e, he, hr⟩
  · rintro h r ⟨e, he, hr⟩
    exact h e he r hr

@[simp]
theorem readable_ite {c : Prop} [Decidable c] :
    Readable (if c then l else r) ↔ if c then Readable l else Readable r := by
  split <;> rfl

@[simp]
theorem readable_add : Readable (.add w l r) ↔ Readable l ∧ Readable r := readable_binary

@[simp]
theorem readable_sub : Readable (.sub w l r) ↔ Readable l ∧ Readable r := readable_binary

@[simp]
theorem readable_mul : Readable (.mul w l r) ↔ Readable l ∧ Readable r := readable_binary

@[simp]
theorem readable_and : Readable (.and w l r) ↔ Readable l ∧ Readable r := readable_binary

@[simp]
theorem readable_or : Readable (.or w l r) ↔ Readable l ∧ Readable r := readable_binary

@[simp]
theorem readable_xor : Readable (.xor w l r) ↔ Readable l ∧ Readable r := readable_binary

@[simp]
theorem readable_shl : Readable (.shl w l r) ↔ Readable l ∧ Readable r := readable_binary

@[simp]
theorem readable_lsr : Readable (.lsr w l r) ↔ Readable l ∧ Readable r := readable_binary

@[simp]
theorem readable_asr : Readable (.asr w l r) ↔ Readable l ∧ Readable r := readable_binary

@[simp]
theorem readable_not : Readable (.not w e) ↔ Readable e := Iff.rfl

@[simp]
theorem readable_neg : Readable (.neg w e) ↔ Readable e := Iff.rfl

@[simp]
theorem readable_sext : Readable (.sext w e) ↔ Readable e := Iff.rfl

@[simp]
theorem readable_zext : Readable (.zext w e) ↔ Readable e := Iff.rfl

@[simp]
theorem readable_resize : Readable (e.resize w) ↔ Readable e := by
  unfold resize
  split
  · rfl
  · split <;> rfl

@[simp]
theorem readable_bit {n : Nat} : Readable (e.bit n) ↔ Readable e := by
  simp [bit]

@[simp]
theorem readable_select {c yes no : Expr} :
    Readable (.select w c yes no) ↔ Readable c ∧ Readable yes ∧ Readable no := by
  simp only [select, readable_xor, readable_and, readable_neg, readable_resize]
  tauto

@[simp]
theorem readable_advanced : Readable e.advanced ↔ Readable e := by simp [advanced]

@[simp]
theorem readable_overflow {s : Sign} : Readable (e.overflow w s) ↔ Readable e := by
  simp [overflow]

@[simp]
theorem readable_saturate {s : Sign} : Readable (e.saturate w s) ↔ Readable e := by
  simp [saturate]

@[simp]
theorem readable_lane {lane : Lane} {i : Nat} : Readable (e.lane lane i) ↔ Readable e := by
  simp [Expr.lane]

theorem readable_foldl_or {es : List Expr} (he : Readable e) (h : ∀ x ∈ es, Readable x) :
    Readable (es.foldl (.or w) e) := by
  induction es generalizing e with
  | nil => exact he
  | cons x es ih =>
    exact ih (readable_or.2 ⟨he, h x List.mem_cons_self⟩) fun y hy =>
      h y (List.mem_cons_of_mem x hy)

theorem readable_pack {lane : Lane} {parts : List Expr} (h : ∀ e ∈ parts, Readable e) :
    Readable (.pack lane parts) := by
  have hplaced : ∀ x ∈ parts.mapIdx (placed lane), Readable x := by
    intro x hx
    obtain ⟨i, hi, rfl⟩ := List.mem_mapIdx.1 hx
    simpa [placed] using h parts[i] (List.getElem_mem hi)
  unfold pack
  split
  · exact readable_const
  · next first rest heq =>
    rw [heq] at hplaced
    exact readable_foldl_or (hplaced first List.mem_cons_self) fun x hx =>
      hplaced x (List.mem_cons_of_mem first hx)

theorem readable_any {es : List Expr} (h : ∀ e ∈ es, Readable e) : Readable (.any es) := by
  cases es with
  | nil => exact readable_const
  | cons first rest =>
    exact readable_foldl_or (h first List.mem_cons_self) fun x hx =>
      h x (List.mem_cons_of_mem first hx)

@[simp]
theorem readable_highWord : Readable e.highWord ↔ Readable e := by simp [highWord]

@[simp]
theorem readable_pair : Readable (.pair l r) ↔ Readable l ∧ Readable r := by simp [pair]

@[simp]
theorem readable_aligned {r : Register} : Readable (.aligned r) ↔ r.Present := by simp [aligned]

@[simp]
theorem readable_combine {op : LogicOp} :
    Readable (.combine op w l r) ↔ Readable l ∧ Readable r := by
  cases op <;> simp [combine]

@[simp]
theorem readable_fold {acc : Combine} : Readable (.fold acc l r) ↔ Readable l ∧ Readable r := by
  cases acc <;> simp [fold]

end Expr

/-! ## Emissions -/

namespace Stmt

/-- All registers that the statement reads or names are present. -/
def Present (stmt : Stmt) : Prop :=
  (∀ r ∈ stmt.reads, r.Present) ∧ ∀ r ∈ stmt.named, r.Present

variable {e : Expr} {yes no : Label}

theorem present_setFlag {f : Flag} (h : e.Readable) : Present (.setFlag f e) :=
  ⟨h, by simp [named]⟩

theorem present_jump (h : e.Readable) : Present (.jump e) := ⟨h, by simp [named]⟩

theorem present_call (h : e.Readable) : Present (.call e) := ⟨h, by simp [named]⟩

theorem present_ret (h : e.Readable) : Present (.ret e) := ⟨h, by simp [named]⟩

theorem present_branch (h : e.Readable) : Present (.branch e yes no) := ⟨h, by simp [named]⟩

theorem present_goto : Present (.goto yes) := ⟨by simp [reads], by simp [named]⟩

end Stmt

namespace Lift

variable {α β : Type} {n l a b : Nat}

/-- The value has the property, at most `n` temporaries and `l` labels are taken, and the statements
use present registers. -/
structure Uses (n l : Nat) (Q : α → Prop) (e : Emit α) : Prop where
  value : ∀ supply, Q (e supply).1
  temps : ∀ supply, (e supply).2.2.temps ≤ supply.temps + n
  labels : ∀ supply, (e supply).2.2.labels ≤ supply.labels + l
  present : ∀ supply, ∀ stmt ∈ (e supply).2.1, stmt.Present

theorem present_tempFor (n : Nat) (v : Expr) : (tempFor n v).1.Present := by
  cases hw : v.width <;> simp [tempFor, hw, Register.Present]

namespace Uses

variable {Q : α → Prop} {R : β → Prop} {x : Emit α} {f : α → Emit β}

theorem pure {v : α} (h : Q v) : Uses n l Q (Pure.pure v) where
  value _ := h
  temps _ := Nat.le_add_right _ _
  labels _ := Nat.le_add_right _ _
  present _ _ hs := nomatch hs

theorem bind (hx : Uses a b Q x) (hf : ∀ v, Q v → Uses n l R (f v)) :
    Uses (n + a) (l + b) R (x >>= f) where
  value supply := (hf _ (hx.value supply)).value _
  temps supply := by
    have hfirst := hx.temps supply
    have hrest := (hf _ (hx.value supply)).temps (x supply).2.2
    exact hrest.trans (by omega)
  labels supply := by
    have hfirst := hx.labels supply
    have hrest := (hf _ (hx.value supply)).labels (x supply).2.2
    exact hrest.trans (by omega)
  present supply stmt hs := by
    rcases List.mem_append.1 hs with hs | hs
    · exact hx.present supply stmt hs
    · exact (hf _ (hx.value supply)).present _ stmt hs

theorem mono (hx : Uses a l Q x) (h : a ≤ n) : Uses n l Q x :=
  ⟨hx.value, fun supply => (hx.temps supply).trans (Nat.add_le_add_left h _), hx.labels, hx.present⟩

/-- What comes first takes nothing. -/
theorem free_bind (hx : Uses 0 0 Q x) (hf : ∀ v, Q v → Uses n l R (f v)) :
    Uses n l R (x >>= f) := hx.bind hf

theorem mapM {g : β → Emit α} {bs : List β} (h : ∀ v ∈ bs, Uses a 0 Q (g v)) :
    Uses (bs.length * a) 0 (fun vs => ∀ v ∈ vs, Q v) (bs.mapM g) := by
  suffices hloop : ∀ acc : List α, (∀ v ∈ acc, Q v) →
      Uses (bs.length * a) 0 (fun vs => ∀ v ∈ vs, Q v) (List.mapM.loop g bs acc) by
    simpa [List.mapM] using hloop [] (by simp)
  induction bs with
  | nil => exact fun acc hacc => pure (by simpa using hacc)
  | cons u bs ih =>
    intro acc hacc
    rw [List.length_cons, Nat.add_one_mul]
    refine bind (l := 0) (h u List.mem_cons_self) fun v hv => ?_
    exact ih (fun u' hu => h u' (List.mem_cons_of_mem u hu)) (v :: acc) (by simpa [hv] using hacc)

theorem emit {stmt : Stmt} (h : stmt.Present) : Uses n l (fun _ => True) (emit stmt) where
  value _ := trivial
  temps _ := Nat.le_add_right _ _
  labels _ := Nat.le_add_right _ _
  present _ _ hs := by rwa [List.mem_singleton.1 hs]

theorem emitAll {stmts : List Stmt} (h : ∀ stmt ∈ stmts, stmt.Present) :
    Uses n l (fun _ => True) (emitAll stmts) where
  value _ := trivial
  temps _ := Nat.le_add_right _ _
  labels _ := Nat.le_add_right _ _
  present _ := h

theorem set {r : Register} {v : Expr} (hr : r.Present) (hv : v.Readable) :
    Uses n l (fun _ => True) (set r v) :=
  emit ⟨hv, fun _ hr' => List.mem_singleton.1 hr' ▸ hr⟩

theorem setFlag {g : Flag} {v : Expr} (hv : v.Readable) :
    Uses n l (fun _ => True) (setFlag g v) := emit (Stmt.present_setFlag hv)

theorem store {w : Width} {addr v : Expr} (ha : addr.Readable) (hv : v.Readable) :
    Uses n l (fun _ => True) (store w addr v) :=
  emit ⟨List.forall_mem_append.2 ⟨ha, hv⟩, fun _ h => nomatch h⟩

theorem mark {label : Label} : Uses n l (fun _ => True) (mark label) :=
  emit ⟨by simp [Stmt.reads], by simp [Stmt.named]⟩

theorem intrinsic {i : Intrinsic} {outputs : List Register} {inputs : List Expr}
    (ho : ∀ r ∈ outputs, r.Present) (hi : ∀ e ∈ inputs, e.Readable) :
    Uses n l (fun _ => True) (intrinsic i outputs inputs) :=
  emit ⟨fun r hr => have ⟨e, he, hre⟩ := List.mem_flatMap.1 hr; hi e he r hre, ho⟩

theorem temp {v : Expr} (hv : v.Readable) : Uses (n + 1) l Expr.Readable (temp v) where
  value supply := Expr.readable_reg.2 (present_tempFor supply.temps v)
  temps _ := by simp only [Lift.temp]; omega
  labels _ := Nat.le_add_right _ _
  present supply stmt hs := by
    rw [List.mem_singleton.1 hs]
    have hread : (tempFor supply.temps v).2.Readable := by
      cases hw : v.width <;> simpa [tempFor, hw] using hv
    exact ⟨hread, fun r hr => List.mem_singleton.1 hr ▸ present_tempFor supply.temps v⟩

/-- A temporary may be used in whatever follows. -/
theorem temp_bind {v : Expr} {f : Expr → Emit β} (hv : v.Readable)
    (hf : ∀ e : Expr, e.Readable → Uses n l R (f e)) : Uses (n + 1) l R (Lift.temp v >>= f) :=
  bind (a := 1) (b := 0) (temp hv) hf

theorem newLabel : Uses n (l + 1) (fun _ => True) newLabel where
  value _ := trivial
  temps _ := Nat.le_add_right _ _
  labels _ := by simp only [Lift.newLabel]; omega
  present _ _ hs := nomatch hs

theorem labelAt? {addr : Address} : Uses n l (fun _ => True) (labelAt? addr) where
  value _ := trivial
  temps _ := Nat.le_add_right _ _
  labels _ := Nat.le_add_right _ _
  present _ _ hs := nomatch hs

theorem overflowStatus {v av : Expr} (hv : v.Readable) (ha : av.Readable) :
    Uses n l (fun _ => True) (overflowStatus v av) :=
  (setFlag hv).free_bind fun _ _ => (setFlag (by simp)).free_bind fun _ _ => setFlag ha

theorem status {v av : Expr} (hv : v.Readable) (ha : av.Readable) :
    Uses n l (fun _ => True) (status v av) :=
  (overflowStatus hv ha).free_bind fun _ _ => setFlag (by simp)

/-- The status is written first, and then the result. -/
theorem status_set {v av e : Expr} {r : Register} (hv : v.Readable) (ha : av.Readable)
    (hr : r.Present) (he : e.Readable) :
    Uses n l (fun _ => True) (do Lift.status v av; Lift.set r e) :=
  (status hv ha).free_bind fun _ _ => set hr he

end Uses

/-! ## Operands -/

/-- If the reading succeeds, its value has the property. -/
def Gives (x : Read α) (Q : α → Prop) : Prop := ∀ v, x = .ok v → Q v

namespace Gives

variable {Q : α → Prop} {R : β → Prop}

theorem ok {v : α} (h : Q v) : Gives (.ok v) Q := by
  rintro _ ⟨⟩
  exact h

theorem error {e : OperandError} : Gives (.error e) Q := by rintro _ ⟨⟩

theorem any {x : Read α} : Gives x fun _ => True := fun _ _ => trivial

theorem bind {x : Read α} {f : α → Read β} (hx : Gives x Q) (hf : ∀ v, Q v → Gives (f v) R) :
    Gives (x >>= f) R := by
  cases x with
  | error e => exact error
  | ok v => exact hf v (hx v rfl)

theorem map {x : Read α} {f : α → β} (hx : Gives x Q) (hf : ∀ v, Q v → R (f v)) :
    Gives (f <$> x) R := by
  cases x with
  | error e => exact error
  | ok v => exact ok (hf v (hx v rfl))

theorem mapM {x : α → Read β} {as : List α} (h : ∀ v ∈ as, Gives (x v) R) :
    Gives (as.mapM x) fun vs => ∀ v ∈ vs, R v := by
  induction as with
  | nil => exact ok (by simp)
  | cons v as ih =>
    rw [List.mapM_cons]
    refine bind (h v List.mem_cons_self) fun first hfirst => ?_
    refine bind (ih fun u hu => h u (List.mem_cons_of_mem v hu)) fun rest hrest => ok ?_
    simpa [hfirst] using hrest

end Gives

end Lift

/-- The registers of the operand are present. -/
def Operand.Present : Operand → Prop
  | reg r => r.Present
  | place p => ∀ r ∈ p.register?, r.Present
  | _ => True

namespace Lift

namespace Source

def Present (s : Source) : Prop := ∀ o ∈ s.operands, o.Present

namespace Present

variable {s : Source} (h : s.Present) (i : Nat)
include h

theorem operand : Gives (s.operand i) Operand.Present := by
  unfold Source.operand
  split
  · next o ho => exact .ok (h o (List.mem_of_getElem? ho))
  · exact .error

theorem reg : Gives (s.reg i) Register.Present := by
  refine (h.operand i).bind fun o ho => ?_
  cases o with
  | reg r => exact .ok ho
  | _ => exact .error

theorem value : Gives (s.value i) Expr.Readable := by
  refine (h.operand i).bind fun o ho => ?_
  cases o with
  | reg r => exact .ok (Expr.readable_reg.2 ho)
  | imm | high | target | csfr => exact .ok Expr.readable_const
  | place | selector => exact .error

theorem place : Gives (s.place i) fun p => ∀ r ∈ p.register?, r.Present := by
  refine (h.operand i).bind fun o ho => ?_
  cases o with
  | place p => exact .ok ho
  | _ => exact .error

theorem pair : Gives (s.pair i) fun x => x.1.Present ∧ x.2.Present := by
  refine (h.reg i).bind fun r hr => ?_
  cases hx : r.halves? with
  | none => exact .error
  | some x => exact .ok (hr.halves hx)

theorem values : Gives (s.values i) fun es => ∀ e ∈ es, e.Readable := .mapM fun j _ => h.value j

theorem amount : Gives (s.amount i) fun a => a.expr.Readable := by
  refine (h.operand i).bind fun o ho => ?_
  cases o with
  | imm => exact .ok Expr.readable_const
  | reg r => exact .ok (Expr.readable_and.2 ⟨Expr.readable_reg.2 ho, Expr.readable_const⟩)
  | _ => exact .error

theorem field : Gives (s.field i) fun x => x.1.expr.Readable ∧ x.2.expr.Readable := by
  have two : Gives (do return (← s.amount i, ← s.amount (i + 1)))
      fun x => x.1.expr.Readable ∧ x.2.expr.Readable :=
    (h.amount i).bind fun _ hp => (h.amount (i + 1)).bind fun _ hw => .ok ⟨hp, hw⟩
  refine (h.operand i).bind fun o ho => ?_
  cases o with
  | reg r =>
    cases r with
    | e n =>
      obtain ⟨hlo, hhi⟩ := Register.Present.halves (r := .e n) ho rfl
      exact .ok ⟨by simpa [Amount.ofRegister, Amount.expr] using hlo,
        by simpa [Amount.ofRegister, Amount.expr] using hhi⟩
    | _ => exact two
  | _ => exact two

theorem bit : Gives (s.bit i) Expr.Readable :=
  (h.value i).bind fun _ hv => .bind .any fun _ _ => .ok (Expr.readable_bit.2 hv)

theorem binary : Gives s.binary fun x => x.1.Present ∧ x.2.1.Readable ∧ x.2.2.Readable := by
  unfold Source.binary
  split
  · exact (h.reg 0).bind fun _ hd => (h.value 1).bind fun _ ha => (h.value 2).bind fun _ hb =>
      .ok ⟨hd, ha, hb⟩
  · exact (h.reg 0).bind fun _ hd => (h.value 0).bind fun _ ha => (h.value 1).bind fun _ hb =>
      .ok ⟨hd, ha, hb⟩
  · exact .error

theorem unary : Gives s.unary fun x => x.1.Present ∧ x.2.Readable := by
  unfold Source.unary
  split
  · exact (h.reg 0).bind fun _ hd => (h.value 1).bind fun _ ha => .ok ⟨hd, ha⟩
  · exact (h.reg 0).bind fun _ hd => (h.value 0).bind fun _ ha => .ok ⟨hd, ha⟩
  · exact .error

end Present

end Source

end Lift

end Tricore
