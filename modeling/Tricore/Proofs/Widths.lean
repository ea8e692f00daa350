import Mathlib
import Tricore.Proofs.Execution
import Tricore.Proofs.Plans
import Tricore.Proofs.Scoping

/-!
# Widths of operands

`Action.width?` lists the widths that an action takes its operands to have. Every row of the table
has operands of these widths (`Opcode.widths_fit`), so the operands of a decoded instruction have
them too (`Instruction.sized`), and what is read from them is typed (`Source.Fits.sizedReg` and the
lemmas after it).
-/

namespace Tricore

/-- The width that an operand is read at. -/
def Shape.width? : Shape → Option Width
  | data | address | imm | high | target => some .word
  | dataPair | addressPair => some .double
  | special | place | csfr | selector => none

/-- The base register of an addressing mode without a pair. -/
def Place.base? : Place → Option Register
  | based r _ | postIncrement r _ | preIncrement r _ => some r
  | absolute _ | bitReverse _ | circular _ _ => none

/-- The width of the register that is loaded or stored. -/
def Access.registerWidth : Access → Width
  | double | addressPair => .double
  | _ => .word

namespace Action

/-- The first `n` operands are pairs, the others words. -/
def pairsFirst (n i : Nat) : Option Width := some (if i < n then .double else .word)

/-- The first `n` operands are words, and the others are not read as values. -/
def wordsFirst (n i : Nat) : Option Width := if i < n then some .word else none

/-- The widths that an action takes its operands to have; `none` where any will do. -/
def width? : Action → Nat → Option Width
  | move => fun i => if i = 0 then none else some .word
  | movePair | divide _ | divideInit _ _ => pairsFirst 1
  | insertMask => fun i => if i < 2 then pairsFirst 1 i else none
  | extract _ => wordsFirst 2
  | insert => wordsFirst 3
  | multiply _ wide _ => pairsFirst (if wide then 1 else 0)
  | multiplyAdd _ _ wide _ => pairsFirst (if wide then 2 else 0)
  | halfMultiply _ hi _ shape _ => fun i => some (
      if i = 0 then (if shape = .pair ∨ shape = .merged then .double else .word)
      else if i = 1 ∧ hi ≠ .none ∧ shape ≠ .rounded then .double else .word)
  | fractionMultiply _ wide acc _ _ =>
    pairsFirst (if wide then (if acc = .none then 1 else 2) else 0)
  | load kind => fun i => if i = 0 then some kind.registerWidth else none
  | store kind => fun i => if i = 1 then some kind.registerWidth else none
  | loadModifyStore | compareSwap | swapMasked | platform _ | dataIntrinsic _ | readCsfr
  | writeCsfr => fun _ => none
  | _ => fun _ => some .word

/-- The action uses labels inside the instruction, or asks the host for those of addresses. -/
def labels : Action → Bool
  | jump | loopForever | branch _ | branchBit _ | branchStep _ | loop | compareSwap | trapOn _ => true
  | _ => false

/-- The intrinsics that take an address get one from a memory operand. -/
def addresses : Action → Bool
  | platform i | dataIntrinsic i => !i.takesAddress
  | _ => true

end Action

/-- Does the shape have the width, as far as either is known? -/
def Shape.agrees (shape : Shape) (w? : Option Width) : Bool :=
  match shape.width?, w? with
  | some v, some w => v = w
  | _, _ => true

theorem Shape.eq_of_agrees {shape : Shape} {v w : Width} (h : shape.agrees (some w) = true)
    (hv : shape.width? = some v) : v = w := by
  simpa [agrees, hv] using h

/-- The operands have the widths that the action takes them to have. -/
def Row.sized (r : Row) : Bool :=
  r.action.addresses && r.shapes.zipIdx.all fun (shape, i) => shape.agrees (r.action.width? i)

theorem Opcode.widths_fit : ∀ g ∈ table, ∀ r ∈ g.rows, r.sized = true := by decide +kernel

namespace OperandKind

variable {format : Format} {fields : Fields} {addr : Address} {k : OperandKind}

theorem base_of_resolve {p : Place} (h : k.resolve format fields addr = .ok (.place p)) :
    ∀ r ∈ p.base?, r.width = .word := by
  cases k with
  | dataPair | addressPair => exact nomatch (of_pair_eq_ok h).2
  | based mode =>
    cases mode with
    | bitReverse | circular => cases (of_pair_eq_ok h).2; rintro _ ⟨⟩
    | _ => cases h; rintro _ ⟨⟩; rfl
  | absolute => cases h; rintro _ ⟨⟩
  | _ => cases h <;> rintro _ ⟨⟩ <;> rfl

end OperandKind

/-- The expression has the width, whatever temporaries are known. -/
abbrev Expr.Plain (w : Width) (e : Expr) : Prop := ∀ known v, HasWidth known v e ↔ w = v

namespace Register

variable {r : Register}

theorem width_cases (r : Register) : r.width = .word ∨ r.width = .double := by
  cases r <;> simp [width]

theorem Ordinary.isTemp (h : r.Ordinary) : r.isTemp = false := by
  cases r with
  | temp | tempWide => exact absurd rfl h
  | _ => rfl

theorem Ordinary.width? (h : r.Ordinary) : r.shape.width? = some r.width := by
  cases r with
  | d | a | e | p => rfl
  | _ => exact absurd rfl h

theorem Plain.expr {w : Width} (h : r.Plain w) : Expr.Plain w (.reg r) := by
  intro known v
  simp [h.1, h.2]

end Register

/-- A value operand is read at the width that its shape has. -/
theorem Operand.plain_expr {o : Operand} (ho : Role.value.takes o.shape = true) :
    ∃ w, o.shape.width? = some w ∧ o.expr.Plain w := by
  cases o with
  | reg r =>
    have hord : r.Ordinary := by
      intro hs
      rw [shape, hs] at ho
      cases ho
    exact ⟨r.width, hord.width?, Register.Plain.expr ⟨hord.isTemp, rfl⟩⟩
  | imm | high => exact ⟨.word, rfl, fun _ _ => Expr.hasWidth_word⟩
  | _ => cases ho

namespace Lift

variable {labels : Bool} {s : Source} {roles : List Role} {dst : Register} {w : Width}

namespace Source

/-- The operands have the listed widths, and addresses are made from words. -/
structure Sized (s : Source) (widths : Nat → Option Width) : Prop where
  widths : ∀ i (o : Operand), s.operands[i]? = some o → o.shape.agrees (widths i) = true
  bases : ∀ p, .place p ∈ s.operands → ∀ r ∈ p.base?, r.width = .word

variable {widths : Nat → Option Width}

namespace Fits

variable (h : s.Fits roles) (hw : s.Sized widths) (i : Nat)

include h in
/-- A destination of any width. -/
theorem plainReg (hi : roles[i]? = some .register) :
    Reads (s.reg i) fun r => r.Plain r.width := by
  obtain ⟨r, hr, -, hord⟩ := h.reg i hi
  exact ⟨r, hr, hord.isTemp, rfl⟩

include h in
/-- A value of any width, which agrees with what is known of it. -/
theorem plainValue (hi : roles[i]? = some .value ∨ roles[i]? = some .register) :
    ∃ o : Operand, s.operands[i]? = some o ∧
      Reads (s.value i) fun e => ∃ w, o.shape.width? = some w ∧ e.Plain w := by
  have hvalue : ∃ o : Operand, s.operands[i]? = some o ∧ Role.value.takes o.shape = true := by
    rcases hi with hi | hi
    · obtain ⟨o, -, hget, ht⟩ := h.operand i hi
      exact ⟨o, hget, ht⟩
    · obtain ⟨o, -, hget, ht⟩ := h.operand i hi
      exact ⟨o, hget, Operand.takes_value ht⟩
  obtain ⟨o, hget, ht⟩ := hvalue
  exact ⟨o, hget, o.expr, value_of i rfl hget ht, Operand.plain_expr ht⟩

include h hw

theorem sizedReg (hi : roles[i]? = some .register) (hwi : widths i = some w) :
    Reads (s.reg i) (Register.Plain w) := by
  obtain ⟨r, hr, hget, hord⟩ := h.reg i hi
  have hagree := hw.widths i _ hget
  rw [hwi] at hagree
  exact ⟨r, hr, hord.isTemp, Shape.eq_of_agrees hagree hord.width?⟩

theorem sizedValue (hi : roles[i]? = some .value ∨ roles[i]? = some .register)
    (hwi : widths i = some w) : Reads (s.value i) (Expr.Plain w) := by
  obtain ⟨o, hget, e, he, v, hv, hplain⟩ := h.plainValue i hi
  refine ⟨e, he, ?_⟩
  have hagree := hw.widths i o hget
  rw [hwi] at hagree
  obtain rfl : v = w := Shape.eq_of_agrees hagree hv
  exact hplain

theorem sizedPlace (hi : roles[i]? = some .place) :
    Reads (s.place i) fun p => (∀ r ∈ p.register?, r.Ordinary) ∧ ∀ r ∈ p.base?, r.width = .word := by
  refine (h.operand i hi).bind ?_
  rintro o ⟨ho, ht⟩
  obtain ⟨p, rfl⟩ := Role.takes_place.1 ht
  have hmem := List.mem_of_getElem? ho
  exact .ok ⟨h.places p hmem, hw.bases p hmem⟩

/-- Destination and two sources; with two operands the first source has the destination's width. -/
theorem sizedBinary (hr : roles = Role.binary s.arity) (h0 : widths 0 = some w)
    (h1 : widths 1 = some .word) (h2 : widths 2 = some .word) :
    Reads s.binary fun x =>
      x.1.Plain w ∧ (x.2.1.Plain w ∨ x.2.1.Plain .word) ∧ x.2.2.Plain .word := by
  subst hr
  unfold Role.binary at h
  unfold Source.binary
  split at h
  · next h3 =>
    simp only [h3]
    exact (h.sizedReg hw 0 rfl h0).bind fun _ hr => (h.sizedValue hw 1 (.inl rfl) h1).bind
      fun _ ha => (h.sizedValue hw 2 (.inl rfl) h2).bind fun _ hb => .ok ⟨hr, .inr ha, hb⟩
  · simp only [show s.arity = 2 from h.arity]
    exact (h.sizedReg hw 0 rfl h0).bind fun _ hr => (h.sizedValue hw 0 (.inr rfl) h0).bind
      fun _ ha => (h.sizedValue hw 1 (.inl rfl) h1).bind fun _ hb => .ok ⟨hr, .inl ha, hb⟩

end Fits

/-- All operands that are read as values are words. -/
abbrev Words (s : Source) : Prop := s.Sized fun _ => some .word

theorem Fits.wordBinary (h : s.Fits (Role.binary s.arity)) (hw : s.Words) :
    Reads s.binary fun x => x.1.Plain .word ∧ x.2.1.Plain .word ∧ x.2.2.Plain .word := by
  simpa only [or_self] using h.sizedBinary hw rfl rfl rfl rfl

theorem Fits.wordUnary (h : s.Fits (Role.unary s.arity)) (hw : s.Words) :
    Reads s.unary fun x => x.1.Plain .word ∧ x.2.Plain .word := by
  unfold Role.unary at h
  unfold Source.unary
  split at h
  · next h2 =>
    simp only [h2]
    exact (h.sizedReg hw 0 rfl rfl).bind fun _ hr => (h.sizedValue hw 1 (.inl rfl) rfl).bind
      fun _ ha => .ok ⟨hr, ha⟩
  · simp only [show s.arity = 1 from h.arity]
    exact (h.sizedReg hw 0 rfl rfl).bind fun _ hr => (h.sizedValue hw 0 (.inr rfl) rfl).bind
      fun _ ha => .ok ⟨hr, ha⟩

end Source

/-- The plan is made, and what it emits is typed. -/
abbrev WellTyped (labels : Bool) (p : Plan) : Prop := Plans p (Types labels [] fun _ _ => True)

section TwoSources

variable {widths : Nat → Option Width} {Q : Emit Unit → Prop}

/-- A destination and two words. -/
theorem plans_two_words {k : Register → Expr → Expr → Plan}
    (h : s.Fits (.register :: .value :: .value :: roles)) (hw : s.Sized widths)
    (h0 : widths 0 = some w) (h1 : widths 1 = some .word) (h2 : widths 2 = some .word)
    (hk : ∀ dst a b, dst.Plain w → a.Plain .word → b.Plain .word → Plans (k dst a b) Q) :
    Plans (do let dst ← s.reg 0; let a ← s.value 1; let b ← s.value 2; k dst a b) Q :=
  (h.sizedReg hw 0 rfl h0).plans fun dst hd => (h.sizedValue hw 1 (.inl rfl) h1).plans fun a ha =>
    (h.sizedValue hw 2 (.inl rfl) h2).plans fun b hb => hk dst a b hd ha hb

end TwoSources

end Lift

/-! ## Decoded instructions -/

namespace Instruction

variable {isa : Isa} {bytes : List Byte} {addr : Address} {i : Instruction}

theorem forall₂_of_mapM {α β ε : Type} {f : α → Except ε β} {as : List α} {bs : List β}
    (h : as.mapM f = .ok bs) : List.Forall₂ (fun a b => f a = .ok b) as bs := by
  induction as generalizing bs with
  | nil => cases h; exact .nil
  | cons a as ih =>
    rw [List.mapM_cons] at h
    cases hfa : f a with
    | error => simp [hfa, bind, Except.bind] at h
    | ok b =>
      cases hrest : as.mapM f with
      | error => simp [hfa, hrest, bind, Except.bind] at h
      | ok cs =>
        simp only [hfa, hrest, bind, Except.bind, pure, Except.pure, Except.ok.injEq] at h
        exact h ▸ .cons hfa (ih hrest)

theorem exists_of_mem_mapM {α β ε : Type} {f : α → Except ε β} {as : List α} {bs : List β}
    (h : as.mapM f = .ok bs) {b : β} (hb : b ∈ bs) : ∃ a ∈ as, f a = .ok b := by
  obtain ⟨n, hn, rfl⟩ := List.mem_iff_getElem.1 hb
  have hall := forall₂_of_mapM h
  have hn' : n < as.length := hall.length_eq ▸ hn
  exact ⟨as[n], List.getElem_mem hn', hall.get hn' hn⟩

/-- The operands of a decoded instruction have the widths that it works at. -/
theorem sized (h : decode isa bytes addr = .ok i) :
    (Lift.Source.of i).Sized i.row.action.width? ∧ i.row.action.addresses = true := by
  obtain ⟨e, -, -, -, g, hg, hr, hos⟩ := of_decode h
  have hrow := Opcode.widths_fit g hg _ hr
  simp only [Row.sized, Bool.and_eq_true, List.all_eq_true] at hrow
  refine ⟨⟨fun k o hk => ?_, fun p hp => ?_⟩, hrow.1⟩
  · have hshape : i.row.shapes[k]? = some o.shape := by
      rw [← (fits h).2, Lift.Source.shapes, List.getElem?_map, hk]
      rfl
    exact hrow.2 (o.shape, k) (List.mem_zipIdx_iff_getElem?.2 hshape)
  · obtain ⟨k, -, hresolve⟩ := exists_of_mem_mapM hos (List.mem_of_mem_filter hp)
    exact OperandKind.base_of_resolve hresolve

end Instruction

end Tricore
