import Mathlib
import Tricore.Proofs.TypedArithmetic

/-!
# Lifted effects are typed

The other families of plans, and then all of them (`Lift.plan_types`). The statements of a lifted
instruction are typed, and read a temporary only after its one write (`lifted_effects_typed`).
-/

namespace Tricore

namespace Lift

variable {labels : Bool} {s : Source} {roles : List Role} {dst : Register} {w : Width}

/-! ## Bit fields -/

section BitFields

/-- A number that is read as a word. -/
abbrev Amount.Plain (a : Amount) : Prop := Expr.Plain .word a.expr

theorem Amount.plain_static (n : Nat) : (Amount.static n).Plain := fun _ _ => Expr.hasWidth_const

theorem Amount.plain_ofRegister (n : Nat) : (Amount.ofRegister (.d n)).Plain := by
  intro known v
  simp [ofRegister, expr, Register.width, Register.isTemp]

theorem sized_amount (h : s.Fits roles) (i : Nat) (hi : roles[i]? = some .amount) :
    Reads (s.amount i) Amount.Plain := by
  refine (h.operand i hi).bind ?_
  rintro o ⟨-, ht⟩
  cases o with
  | imm v => exact .ok (Amount.plain_static _)
  | reg r =>
    cases r with
    | d n => exact .ok (Amount.plain_ofRegister n)
    | _ => cases ht
  | _ => cases ht

theorem sized_field {split : Bool} (h : s.Fits (roles ++ Role.range split)) :
    Reads (s.field roles.length) fun x => x.1.Plain ∧ x.2.Plain := by
  cases split with
  | false =>
    have hi : (roles ++ Role.range false)[roles.length]? = some .field := by simp [Role.range]
    refine (h.operand roles.length hi).bind ?_
    rintro o ⟨-, ht⟩
    obtain ⟨n, rfl⟩ := Role.takes_field.1 ht
    exact .ok ⟨Amount.plain_ofRegister n, Amount.plain_ofRegister (n + 1)⟩
  | true =>
    have hi : (roles ++ Role.range true)[roles.length]? = some .amount := by simp [Role.range]
    have hpos := sized_amount h roles.length hi
    have hwidth := sized_amount h (roles.length + 1) (by simp [Role.range])
    have two : Reads (do return (← s.amount roles.length, ← s.amount (roles.length + 1)))
        fun x : Amount × Amount => x.1.Plain ∧ x.2.Plain :=
      hpos.bind fun _ hp => hwidth.bind fun _ hw => .ok ⟨hp, hw⟩
    refine (h.operand roles.length hi).bind ?_
    rintro o ⟨-, ht⟩
    cases o with
    | reg r => cases r <;> first | exact two | cases ht
    | _ => exact two

theorem sized_bit {widths : Nat → Option Width} (h : s.Fits roles) (hw : s.Sized widths) (i : Nat)
    (hi : roles[i]? = some .value) (hn : roles[i + 1]? = some .immediate)
    (hwi : widths i = some .word) : Reads (s.bit i) (Expr.Plain .byte) := by
  refine (h.sizedValue hw i (.inl hi) hwi).bind fun e he => ?_
  exact (h.count (i + 1) hn).bind fun n _ => .ok (by simp [Expr.Plain, he])

theorem hasWidth_fieldMask {known : List Register} {pos width : Amount} (hp : pos.Plain)
    (hw : width.Plain) : (fieldMask pos width).HasWidth known .word := by
  cases pos with
  | dynamic e => simp [fieldMask, hp, hw]
  | static p =>
    cases width with
    | static n => simp [fieldMask]
    | dynamic e => simp [fieldMask, hp, hw]

/-- Constants are put into the shifts of an extraction at once; for numbers in registers the width is
kept in a temporary. -/
theorem types_extract {op : BinOp} (hop : op.shifts = true) (hd : dst.Plain .word) {src : Expr}
    (hs : src.Plain .word) :
    (∀ up down : Value, Types labels [] (fun _ _ => True)
      (set dst (.binary op .word (.shl .word src (.const .word up)) (.const .word down)))) ∧
    ∀ pos width : Amount, pos.Plain → width.Plain → Types labels [] (fun _ _ => True) (do
      let width ← temp width.expr
      let up := Expr.sub .word (.sub .word (.const .word 32) pos.expr) width
      let down := Expr.sub .word (.const .word 32) width
      set dst (.binary op .word (.shl .word src up) down)) := by
  refine ⟨fun up down => .set hd (by simp [Expr.hasWidth_shift hop, hs]) trivial, ?_⟩
  intro pos width hp hw
  refine .temp_bind .word (by simp [hw]) fun n hn => ?_
  exact .set hd (by simp [Expr.hasWidth_shift hop, hs, hn, hp]) trivial

theorem typed_extract {split : Bool} {sign : Sign}
    (h : s.Fits ([.register, .value] ++ Role.range split))
    (hw : s.Sized (Action.extract sign).width?) : WellTyped labels (Plan.extract sign s) := by
  refine (h.sizedReg hw 0 rfl rfl).plans fun dst hd => ?_
  refine (h.sizedValue hw 1 (.inl rfl) rfl).plans fun src hs => ?_
  refine (sized_field h).plans ?_
  rintro ⟨pos, width⟩ ⟨hp, hwidth⟩
  cases sign with
  | signed | unsigned =>
    cases pos with
    | dynamic e => exact .emitting ((types_extract rfl hd hs).2 _ _ hp hwidth)
    | static p =>
      cases width with
      | dynamic e => exact .emitting ((types_extract rfl hd hs).2 _ _ hp hwidth)
      | static n => exact .emitting ((types_extract rfl hd hs).1 _ _)

theorem typed_insert {split : Bool}
    (h : s.Fits ([.register, .value, .value] ++ Role.range split))
    (hw : s.Sized Action.insert.width?) : WellTyped labels (Plan.insert s) := by
  refine plans_two_words h hw rfl rfl rfl fun dst base src hd hb hs => ?_
  refine (sized_field h).plans ?_
  rintro ⟨pos, width⟩ ⟨hp, hwidth⟩
  refine .emitting ?_
  refine .temp_bind .word (hasWidth_fieldMask hp hwidth) fun mask hm => ?_
  exact .set hd (by simp [hb, hs, hm, hp]) trivial

theorem typed_insertMask {split : Bool} (h : s.Fits ([.register, .value] ++ Role.range split))
    (hw : s.Sized Action.insertMask.width?) : WellTyped labels (Plan.insertMask s) := by
  refine (h.sizedReg hw 0 rfl rfl).plans fun dst hd => ?_
  refine (h.sizedValue hw 1 (.inl rfl) rfl).plans fun src hs => ?_
  refine (sized_field h).plans ?_
  rintro ⟨pos, width⟩ ⟨hp, hwidth⟩
  have hmask : (fieldMask pos width).HasWidth [] .word := hasWidth_fieldMask hp hwidth
  exact .emitting (.set hd (by simp [hmask.iff, hs, hp]) trivial)

theorem typed_extractDouble (h : s.Fits [.register, .value, .value, .amount]) (hw : s.Words) :
    WellTyped labels (Plan.extractDouble s) := by
  refine plans_two_words h hw rfl rfl rfl fun dst hi lo hd hh hl => ?_
  refine (sized_amount h 3 rfl).plans fun pos hp => ?_
  exact .emitting (.set hd (by simp [hh, hl, hp]) trivial)

theorem typed_bitLogic (h : s.Fits [.register, .value, .immediate, .value, .immediate])
    (hw : s.Words) {op : LogicOp} {acc : Option Combine} :
    WellTyped labels (Plan.bitLogic op acc s) := by
  refine (h.sizedReg hw 0 rfl rfl).plans fun dst hd => ?_
  refine (sized_bit h hw 1 rfl rfl rfl).plans fun a ha => ?_
  refine (sized_bit h hw 3 rfl rfl rfl).plans fun b hb => ?_
  refine .emitting (.set hd ?_ trivial)
  cases acc with
  | none => simp [ha, hb]
  | some acc => simp [ha, hb, hd.1, hd.2]

theorem typed_insertBit (h : s.Fits [.register, .value, .immediate, .value, .immediate])
    (hw : s.Words) {negate : Bool} : WellTyped labels (Plan.insertBit negate s) := by
  refine (h.sizedReg hw 0 rfl rfl).plans fun dst hd => ?_
  refine (h.sizedValue hw 1 (.inl rfl) rfl).plans fun base hb => ?_
  refine (h.count 2 rfl).plans fun pos _ => ?_
  refine (sized_bit h hw 3 rfl rfl rfl).plans fun b hbit => ?_
  exact .emitting (.set hd (by simp [hb, hbit]) trivial)

end BitFields

/-! ## Memory -/

section Memory

variable {known : List Register} {place : Place}

theorem plain_pairParts {r : Register} (h : r.Ordinary) :
    (pairParts r).1.Plain .word ∧ (pairParts r).2.Plain .word := by
  cases r with
  | d | a | e | p => exact ⟨⟨rfl, rfl⟩, ⟨rfl, rfl⟩⟩
  | _ => exact absurd rfl h

/-- The address is a word, and the updates can be emitted. -/
structure Addressed.Typed (known : List Register) (a : Addressed) : Prop where
  addr : a.addr.HasWidth known .word
  updates : ∀ stmt ∈ a.updates, stmt.Quiet known

theorem Addressed.Typed.mono {more : List Register} {a : Addressed} (h : a.Typed known)
    (hm : known ⊆ more) : a.Typed more :=
  ⟨h.addr.mono hm, fun stmt hs => (h.updates stmt hs).mono hm⟩

theorem types_circular {pair : Register} (h : pair.Ordinary) {offset : Word} :
    Types labels [] Addressed.Typed (circular pair offset) := by
  have hparts := plain_pairParts h
  unfold circular
  generalize pairParts pair = parts at hparts ⊢
  obtain ⟨base, state⟩ := parts
  obtain ⟨hbase, hstate⟩ := hparts
  refine .temp_bind .word (by simp [hstate.1, hstate.2]) fun index hi => ?_
  refine .temp_bind .word (by simp [hstate.1, hstate.2]) fun length hl => ?_
  refine .temp_bind .word (by simp [hbase.1, hbase.2, hi]) fun addr ha => ?_
  refine .temp_bind .word (by simp [hi]) fun raised hr => ?_
  refine .temp_bind .word (by simp [hr, hl]) fun stepped hs => ?_
  refine .pure ⟨by simp [ha], ?_⟩
  intro stmt hstmt
  obtain rfl := List.mem_singleton.1 hstmt
  exact .setReg hstate.1 (by simp [hstate.2, hl, hs])

theorem types_access (h : ∀ r ∈ place.register?, r.Ordinary)
    (hb : ∀ r ∈ place.base?, r.width = .word) :
    Types labels [] Addressed.Typed (access place) := by
  cases place with
  | absolute addr => exact .pure ⟨by simp, by simp⟩
  | based base offset =>
    have hplain := (h base rfl).isTemp
    exact .pure ⟨by simp [hb base rfl, hplain], by simp⟩
  | postIncrement base offset =>
    have hplain := (h base rfl).isTemp
    refine .temp_bind .word (by simp [hb base rfl, hplain]) fun addr ha => .pure ⟨by simp [ha], ?_⟩
    intro stmt hstmt
    obtain rfl := List.mem_singleton.1 hstmt
    exact .setReg hplain (by simp [hb base rfl, ha])
  | preIncrement base offset =>
    have hplain := (h base rfl).isTemp
    refine .temp_bind .word (by simp [hb base rfl, hplain]) fun addr ha => .pure ⟨by simp [ha], ?_⟩
    intro stmt hstmt
    obtain rfl := List.mem_singleton.1 hstmt
    exact .setReg hplain (by simp [hb base rfl, ha])
  | bitReverse pair =>
    have hparts := plain_pairParts (h pair rfl)
    simp only [access]
    generalize pairParts pair = parts at hparts ⊢
    obtain ⟨base, index⟩ := parts
    obtain ⟨hbase, hindex⟩ := hparts
    refine .temp_bind .word (by simp [hbase.1, hbase.2, hindex.1, hindex.2]) fun addr ha =>
      .pure ⟨by simp [ha], ?_⟩
    intro stmt hstmt
    obtain rfl := List.mem_singleton.1 hstmt
    exact .intrinsic (by simpa using hindex.1) (by simp [hindex.1]) (by simp [Intrinsic.takesAddress])
  | circular pair offset => exact types_circular (h pair rfl)

@[simp]
theorem hasWidth_masked {v : Width} {old value mask : Expr} :
    (masked old value mask).HasWidth known v ↔ .word = v ∧ old.HasWidth known .word ∧
      value.HasWidth known .word ∧ mask.HasWidth known .word := by
  simp [masked]
  tauto

theorem sized_pair (h : s.Fits roles) (i : Nat) (hi : roles[i]? = some .pair) :
    Reads (s.pair i) fun x => x.1.Plain .word ∧ x.2.Plain .word := by
  have hreg : Reads (s.reg i) fun r => ∃ lo hi, r.halves? = some (lo, hi) ∧ lo.Plain .word ∧
      hi.Plain .word := by
    refine (h.operand i hi).bind ?_
    rintro o ⟨-, ht⟩
    cases o with
    | reg r =>
      cases r with
      | e n | p n => exact .ok ⟨_, _, rfl, ⟨rfl, rfl⟩, ⟨rfl, rfl⟩⟩
      | _ => cases ht
    | _ => cases ht
  refine hreg.bind ?_
  rintro r ⟨lo, hi, hr, hlo, hhi⟩
  simp only [hr]
  exact .ok ⟨hlo, hhi⟩

/-- After the access come the updates. -/
theorem types_updates {a : Addressed} (h : a.Typed known) :
    Types labels known (fun _ _ => True) (emitAll a.updates) := .emitAll h.updates trivial

variable {widths : Nat → Option Width} (hw : s.Sized widths)
include hw

theorem typed_loadAddress (h : s.Fits [.register, .place]) (h0 : widths 0 = some .word) :
    WellTyped labels (Plan.loadAddress s) := by
  refine (h.sizedReg hw 0 rfl h0).plans fun dst hd => ?_
  refine (h.sizedPlace hw 1 rfl).plans fun place hp => .emitting ?_
  exact .bind (types_access hp.1 hp.2) fun _ _ a ha => .set hd ha.addr trivial

theorem typed_load {kind : Access} (h : s.Fits [.register, .place])
    (h0 : widths 0 = some kind.registerWidth) : WellTyped labels (Plan.load kind s) := by
  refine (h.sizedReg hw 0 rfl h0).plans fun dst hd => ?_
  refine (h.sizedPlace hw 1 rfl).plans fun place hp => .emitting ?_
  refine .bind (types_access hp.1 hp.2) fun _ _ a ha => ?_
  refine .set_bind hd ?_ (types_updates ha)
  cases kind <;> simp [Access.width, Access.registerWidth, ha.addr]

theorem typed_store {kind : Access} (h : s.Fits [.place, .value])
    (h1 : widths 1 = some kind.registerWidth) : WellTyped labels (Plan.store kind s) := by
  refine (h.sizedPlace hw 0 rfl).plans fun place hp => ?_
  refine (h.sizedValue hw 1 (.inl rfl) h1).plans fun src hs => .emitting ?_
  refine .bind (types_access hp.1 hp.2) fun _ _ a ha => ?_
  refine .emit_bind (.store ha.addr ?_) (types_updates ha)
  cases kind <;> simp [Access.width, Access.registerWidth, hs]

theorem typed_storeBit (h : s.Fits [.place, .immediate, .immediate]) :
    WellTyped labels (Plan.storeBit s) := by
  refine (h.sizedPlace hw 0 rfl).plans fun place hp => ?_
  refine (h.count 1 rfl).plans fun pos _ => (h.imm 2 rfl).plans fun value _ => .emitting ?_
  refine .bind (types_access hp.1 hp.2) fun _ _ a ha => ?_
  exact .emit_bind (.store ha.addr (by simp [ha.addr])) (types_updates ha)

theorem typed_loadModifyStore (h : s.Fits [.place, .pair]) :
    WellTyped labels (Plan.loadModifyStore s) := by
  refine (h.sizedPlace hw 0 rfl).plans fun place hp => ?_
  refine (sized_pair h 1 rfl).plans ?_
  rintro ⟨value, mask⟩ ⟨hv, hm⟩
  refine .emitting ?_
  refine .bind (types_access hp.1 hp.2) fun _ _ a ha => ?_
  refine .temp_bind .word ha.addr fun addr haddr => ?_
  exact .emit_bind (.store (by simp [haddr]) (by simp [haddr, hv.1, hv.2, hm.1, hm.2]))
    (types_updates (ha.mono (by simp)))

theorem typed_swap (h : s.Fits [.place, .register]) (h1 : widths 1 = some .word) :
    WellTyped labels (Plan.swap s) := by
  refine (h.sizedPlace hw 0 rfl).plans fun place hp => ?_
  refine (h.sizedReg hw 1 rfl h1).plans fun r hr => .emitting ?_
  refine .bind (types_access hp.1 hp.2) fun _ _ a ha => ?_
  refine .temp_bind .word ha.addr fun addr haddr => ?_
  refine .temp_bind .word (by simp [haddr]) fun old hold => ?_
  refine .emit_bind (.store (by simp [haddr]) (by simp [hr.1, hr.2])) ?_
  exact .set_bind hr (by simp [hold]) (types_updates (ha.mono (by simp)))

theorem typed_swapMasked (h : s.Fits [.place, .pair]) : WellTyped labels (Plan.swapMasked s) := by
  refine (h.sizedPlace hw 0 rfl).plans fun place hp => ?_
  refine (sized_pair h 1 rfl).plans ?_
  rintro ⟨value, mask⟩ ⟨hv, hm⟩
  refine .emitting ?_
  refine .bind (types_access hp.1 hp.2) fun _ _ a ha => ?_
  refine .temp_bind .word ha.addr fun addr haddr => ?_
  refine .temp_bind .word (by simp [haddr]) fun old hold => ?_
  refine .emit_bind (.store (by simp [haddr]) (by simp [hold, hv.1, hv.2, hm.1, hm.2])) ?_
  exact .set_bind hv (by simp [hold]) (types_updates (ha.mono (by simp)))

theorem typed_compareSwap (h : s.Fits [.place, .pair]) : WellTyped true (Plan.compareSwap s) := by
  refine (h.sizedPlace hw 0 rfl).plans fun place hp => ?_
  refine (sized_pair h 1 rfl).plans ?_
  rintro ⟨value, expected⟩ ⟨hv, he⟩
  refine .emitting ?_
  refine .bind (types_access hp.1 hp.2) fun _ _ a ha => ?_
  refine .temp_bind .word ha.addr fun addr haddr => ?_
  refine .temp_bind .word (by simp [haddr]) fun old hold => ?_
  refine .newLabel_bind fun hit => .newLabel_bind fun miss => ?_
  refine .branch_bind (by simp [hold, he.1, he.2]) (.mark_bind ?_)
  refine .emit_bind (.store (by simp [haddr]) (by simp [hv.1, hv.2])) (.mark_bind ?_)
  exact .set_bind hv (by simp [hold]) (types_updates (ha.mono (by simp)))

theorem typed_addressed (h : s.Fits [.place]) {i : Intrinsic} {outputs : List Register}
    (ho : ∀ r ∈ outputs, r.isTemp = false) : WellTyped labels (Plan.addressed i outputs s) := by
  refine (h.sizedPlace hw 0 rfl).plans fun place hp => .emitting ?_
  refine .bind (types_access hp.1 hp.2) fun _ _ a ha => ?_
  refine .emit_bind (.intrinsic ho ?_ fun _ => ?_) (types_updates ha)
  · simp [ha.addr.iff]
  · simp [ha.addr]

theorem typed_context (h : s.Fits [.place]) {i : Intrinsic} :
    WellTyped labels (Plan.context i s) := by
  refine typed_addressed hw h ?_
  cases i with
  | loadLowerContext => decide
  | loadUpperContext => decide
  | _ => rintro _ ⟨⟩

theorem typed_cache (h : s.Fits [.place]) {i : Intrinsic} : WellTyped labels (Plan.cache i s) :=
  typed_addressed hw h (by simp)

end Memory

/-! ## Jumps, calls and returns -/

section Jumps

variable {known : List Register}

theorem types_labelOrNew (l? : Option Label) : Types true known (fun more _ => more = known)
    (match l? with | some l => pure l | none => newLabel) := by
  cases l? with
  | none => exact fun supply hn => ⟨trivial, hn, rfl, fun hl => by cases hl⟩
  | some l => exact .pure rfl

theorem types_branchTo {cond : Expr} {target next : Address} (h : cond.HasWidth known .byte) :
    Types true known (fun _ _ => True) (branchTo cond target next) := by
  refine .labelAt?_bind fun taken? => .labelAt?_bind fun fall? => ?_
  refine .bind (types_labelOrNew taken?) fun more _ taken hm => ?_
  subst hm
  refine .bind (types_labelOrNew fall?) fun more _ fall hm => ?_
  subst hm
  refine .branch_bind h ?_
  have hjump {S : List Register → Unit → Prop} (hq : S more ()) :
      Types true more S (emit (.jump (.word target))) := .emit (.jump (by simp)) hq
  cases taken? <;> cases fall?
  · exact .mark_bind (.keep_bind (hjump rfl) (.mark trivial))
  · exact .mark_bind (.keep_bind (hjump rfl) (.pure trivial))
  · exact .mark trivial
  · exact .pure trivial

theorem typed_jump (h : s.Fits [.target]) : WellTyped true (Plan.jump s) := by
  refine (h.target 0 rfl).plans fun target _ => .emitting (.labelAt?_bind fun l? => ?_)
  cases l? with
  | none => exact .emit (.jump (by simp)) trivial
  | some l => exact .goto trivial

theorem typed_jumpIndirect (h : s.Fits [.register]) (hw : s.Words) :
    WellTyped labels (Plan.jumpIndirect s) := by
  refine (h.sizedReg hw 0 rfl rfl).plans fun r hr => .emitting ?_
  exact .temp_bind .word (by simp [hr.1, hr.2]) fun dest hd => .emit (.jump (by simp [hd])) trivial

theorem plain_link : Register.link.Plain .word := ⟨rfl, rfl⟩

theorem plain_stackPointer : Register.stackPointer.Plain .word := ⟨rfl, rfl⟩

/-- What a call does before control moves makes no temporaries known. -/
abbrev Linking (labels : Bool) (link : Address → Emit Unit) : Prop :=
  ∀ known next, Types labels known (fun more _ => more = known) (link next)

theorem linking_save : Linking labels saveAndLink := by
  intro known next
  refine .emit_bind (.intrinsic (by simp [Register.isTemp]) (by simp) (by simp)) ?_
  exact .set plain_link (by simp) rfl

theorem linking_push : Linking labels pushLink := by
  intro known next
  have hsp := plain_stackPointer
  have hlink := plain_link
  refine .set_bind hsp (by simp [hsp.1, hsp.2]) ?_
  refine .emit_bind (.store (by simp [hsp.1, hsp.2]) (by simp [hlink.1, hlink.2])) ?_
  exact .set hlink (by simp) rfl

theorem linking_only : Linking labels Plan.linkOnly := fun _ _ => .set plain_link (by simp) rfl

theorem typed_callDirect (h : s.Fits [.target]) {link : Address → Emit Unit}
    (hl : Linking labels link) : WellTyped labels (Plan.callDirect link s) := by
  refine (h.target 0 rfl).plans fun target _ => .emitting ?_
  exact .keep_bind (hl _ _) (.emit (.call (by simp)) trivial)

theorem typed_callThrough (h : s.Fits [.register]) (hw : s.Words) {link : Address → Emit Unit}
    (hl : Linking labels link) : WellTyped labels (Plan.callThrough link s) := by
  refine (h.sizedReg hw 0 rfl rfl).plans fun r hr => .emitting ?_
  refine .temp_bind .word (by simp [hr.1, hr.2]) fun dest hd => ?_
  exact .keep_bind (hl _ _) (.emit (.call (by simp [hd])) trivial)

theorem typed_ret : WellTyped labels Plan.ret := by
  have hlink := plain_link
  refine .emitting (.temp_bind .word (by simp [hlink.1, hlink.2]) fun dest hd => ?_)
  refine .emit_bind (.intrinsic (by decide) (by simp) (by simp)) ?_
  exact .emit (.ret (by simp [hd])) trivial

theorem typed_fastRet : WellTyped labels Plan.fastRet := by
  have hsp := plain_stackPointer
  have hlink := plain_link
  refine .emitting (.temp_bind .word (by simp [hlink.1, hlink.2]) fun dest hd => ?_)
  refine .set_bind hlink (by simp [hsp.1, hsp.2]) (.set_bind hsp (by simp [hsp.1, hsp.2]) ?_)
  exact .emit (.ret (by simp [hd])) trivial

theorem typed_retMonitor : WellTyped labels Plan.retMonitor := by
  have hlink := plain_link
  refine .emitting (.temp_bind .word (by simp [hlink.1, hlink.2]) fun dest hd => ?_)
  refine .emit_bind (.intrinsic (by decide) (by simp) (by simp)) ?_
  exact .emit (.ret (by simp [hd])) trivial

theorem typed_branch (h : s.Fits (if s.arity = 3 then [.value, .value, .target]
    else [.value, .target])) (hw : s.Words) {c : Condition} : WellTyped true (Plan.branch c s) := by
  unfold Plan.branch
  split at h
  · next h3 =>
    simp only [h3, if_true]
    refine (h.sizedValue hw 0 (.inl rfl) rfl).plans fun lhs hl => ?_
    refine (h.sizedValue hw 1 (.inl rfl) rfl).plans fun rhs hr => ?_
    exact (h.target 2 rfl).plans fun target _ => .emitting (types_branchTo (by simp [hl, hr]))
  · simp only [show s.arity = 2 from h.arity, Nat.reduceEqDiff, if_false]
    refine (h.sizedValue hw 0 (.inl rfl) rfl).plans fun lhs hl => ?_
    exact (h.target 1 rfl).plans fun target _ => .emitting (types_branchTo (by simp [hl]))

theorem typed_branchBit (h : s.Fits [.value, .immediate, .target]) (hw : s.Words) {wanted : Bool} :
    WellTyped true (Plan.branchBit wanted s) := by
  refine (h.sizedValue hw 0 (.inl rfl) rfl).plans fun bit hb => ?_
  refine (h.count 1 rfl).plans fun n _ => (h.target 2 rfl).plans fun target _ => ?_
  exact .emitting (types_branchTo (by simp [hb]))

theorem typed_branchStep (h : s.Fits [.register, .value, .target]) (hw : s.Words) {step : Word} :
    WellTyped true (Plan.branchStep step s) := by
  refine (h.sizedReg hw 0 rfl rfl).plans fun r hr => ?_
  refine (h.sizedValue hw 1 (.inl rfl) rfl).plans fun rhs hrhs => ?_
  refine (h.target 2 rfl).plans fun target _ => .emitting ?_
  refine .temp_bind .byte (by simp [hr.1, hr.2, hrhs]) fun differ hd => ?_
  exact .set_bind hr (by simp [hr.1, hr.2]) (types_branchTo (by simp [isSet, hd]))

theorem typed_loop (h : s.Fits [.register, .target]) (hw : s.Words) :
    WellTyped true (Plan.loop s) := by
  refine (h.sizedReg hw 0 rfl rfl).plans fun r hr => ?_
  refine (h.target 1 rfl).plans fun target _ => .emitting ?_
  refine .temp_bind .byte (by simp [hr.1, hr.2]) fun again ha => ?_
  exact .set_bind hr (by simp [hr.1, hr.2]) (types_branchTo (by simp [isSet, ha]))

end Jumps

/-! ## Platform operations -/

section Platform

variable {known : List Register}

/-- All operands from `i` on are values of some width. -/
theorem sized_values (h : s.Fits roles) (i : Nat)
    (hi : ∀ j, i ≤ j → j < roles.length → roles[j]? = some .value) :
    Reads (s.values i) fun es => ∀ e ∈ es, ∃ w, e.Plain w := by
  have hall : ∀ j ∈ List.range' i (s.arity - i), Reads (s.value j) fun e => ∃ w, e.Plain w := by
    intro j hj
    simp only [List.mem_range'_1, h.arity] at hj
    obtain ⟨o, -, e, he, w, -, hplain⟩ := h.plainValue j (.inl (hi j (by omega) (by omega)))
    exact ⟨e, he, w, hplain⟩
  unfold Source.values
  generalize List.range' i (s.arity - i) = js at hall
  induction js with
  | nil => exact .ok (by rintro _ ⟨⟩)
  | cons j js ih =>
    rw [List.mapM_cons]
    refine (hall j List.mem_cons_self).bind fun e he => ?_
    refine (ih fun k hk => hall k (List.mem_cons_of_mem j hk)).bind fun es hes => .ok ?_
    intro x hx
    rcases List.mem_cons.1 hx with rfl | hx
    · exact he
    · exact hes x hx

/-- Inputs of any width. -/
theorem types_intrinsic {i : Intrinsic} {outputs : List Register} {inputs : List Expr}
    (hi : i.takesAddress = false) (ho : ∀ r ∈ outputs, r.isTemp = false)
    (h : ∀ e ∈ inputs, ∃ w, e.Plain w) :
    Types labels known (fun _ _ => True) (intrinsic i outputs inputs) := by
  refine .emit (.intrinsic ho (fun e he => ?_) (by simp [hi])) trivial
  obtain ⟨w, hw⟩ := h e he
  exact ⟨w, by simp [hw]⟩

theorem typed_platform {i : Intrinsic} (h : s.Fits ((Action.platform i).signature s.arity))
    (hi : i.takesAddress = false) : WellTyped labels (Plan.platform i s) := by
  have values {n : Nat} (h : s.Fits (List.replicate n .value)) :=
    sized_values h 0 fun j _ hj => by simp_all
  cases i with
  | disableInterruptsSaving =>
    exact (h.plainReg 0 rfl).plans fun dst hd =>
      .emitting (types_intrinsic hi (by simp [hd.1]) (by simp))
  | saveLowerContext | bisr =>
    exact (values h).plans fun inputs hin =>
      .emitting (types_intrinsic hi (by simp [Register.isTemp]) hin)
  | restoreLowerContext => exact .emitting (types_intrinsic hi (by decide) (by simp))
  | _ =>
    exact (values h).plans fun inputs hin => .emitting (types_intrinsic hi (by simp) hin)

theorem typed_nop : WellTyped labels (emitting (emit .nop)) := .emitting (.emit .nop trivial)

theorem typed_trapOn {f : Flag} : WellTyped true (Plan.trapOn f) := by
  refine .emitting (.newLabel_bind fun raise => .newLabel_bind fun skip => ?_)
  refine .branch_bind (by simp) (.mark_bind ?_)
  exact .emit_bind (.intrinsic (by simp) (by simp) (by simp)) (.mark trivial)

theorem typed_readCsfr (h : s.Fits [.register, .csfr]) : WellTyped labels (Plan.readCsfr s) := by
  refine (h.plainReg 0 rfl).plans fun dst hd => (h.csfr 1 rfl).plans fun offset _ => ?_
  exact .emitting (.emit (.intrinsic (by simp [hd.1]) (by simp) (by simp [Intrinsic.takesAddress]))
    trivial)

theorem canonical_not_temp (offset : BitVec 16) :
    (Register.canonical (.csfr offset)).isTemp = false := by
  have hviewed : ∀ r ∈ Register.viewed? offset, r.isTemp = false := by
    intro r hr
    unfold Register.viewed? at hr
    dsimp only at hr
    split_ifs at hr <;> first | (obtain rfl := Option.some.inj hr; rfl) | cases hr
  show ((Register.viewed? offset).getD (.csfr offset)).isTemp = false
  cases hv : Register.viewed? offset with
  | none => rfl
  | some r => exact hviewed r hv

theorem typed_writeCsfr (h : s.Fits [.csfr, .register]) : WellTyped labels (Plan.writeCsfr s) := by
  obtain ⟨o, -, e, he, w, -, hplain⟩ := h.plainValue 1 (.inr rfl)
  have hvalue : Reads (s.value 1) fun e => ∃ w, e.Plain w := ⟨e, he, w, hplain⟩
  refine (h.csfr 0 rfl).plans fun offset _ => hvalue.plans fun src hs => ?_
  obtain ⟨w, hsrc⟩ := hs
  refine .emitting (.emit (.intrinsic ?_ (by simp [hsrc]) (by simp [Intrinsic.takesAddress])) trivial)
  simpa using canonical_not_temp offset

theorem typed_dataIntrinsic {n : Nat} (h : s.Fits (.register :: List.replicate n .value))
    {i : Intrinsic} (hi : i.takesAddress = false) : WellTyped labels (Plan.dataIntrinsic i s) := by
  have values := sized_values h 1 fun j hj hn => by
    obtain ⟨j, rfl⟩ : ∃ k, j = k + 1 := ⟨j - 1, by omega⟩
    simp_all
  exact (h.plainReg 0 rfl).plans fun dst hd => values.plans fun inputs hin =>
    .emitting (types_intrinsic hi (by simp [hd.1]) hin)

end Platform

/-! ## Floating point -/

section Floats

variable {known : List Register}

theorem types_setFlags {fs : List Flag} {v : Flag → Expr} {S : List Register → Unit → Prop}
    (h : ∀ f ∈ fs, (v f).HasWidth known .byte) (hq : S known ()) :
    Types labels known S (emitAll (fs.map fun f => .setFlag f (v f))) := by
  refine .emitAll (fun stmt hs => ?_) hq
  obtain ⟨f, hf, rfl⟩ := List.mem_map.1 hs
  exact .setFlag (h f hf)

theorem types_floatFlags {fs : List Flag} {op : FloatCheck} {args : List Expr}
    {S : List Register → Unit → Prop} (h : ∀ e ∈ args, ∃ w, e.HasWidth known w) (hq : S known ()) :
    Types labels known S (floatFlags fs op args) := by
  refine .keep_bind (types_setFlags (fun f _ => ?_) rfl) (.emit (.setFlag ?_) hq)
  · simpa using h
  · refine Expr.hasWidth_any fun e he => ?_
    obtain ⟨f, -, rfl⟩ := List.mem_map.1 he
    simp

theorem types_float {bin : BinOp} (hbin : bin.shifts = false) (hd : dst.Plain .word) {a b : Expr}
    (ha : a.Plain .word) (hb : b.Plain .word) {fs : List Flag} {check : FloatCheck} :
    Types labels [] (fun _ _ => True) (do
      let a ← temp a
      let b ← temp b
      floatFlags fs check [a, b]
      set dst (.binary bin .word a b)) := by
  refine .temp_bind .word (by simp [ha]) fun ra hra => ?_
  refine .temp_bind .word (by simp [hb]) fun rb hrb => ?_
  refine .keep_bind (types_floatFlags (by simp) rfl) ?_
  exact .set hd (by simp [Expr.hasWidth_binary hbin, hra, hrb]) trivial

theorem typed_float (h : s.Fits [.register, .value, .value]) (hw : s.Words) {op : FloatOp} :
    WellTyped labels (Plan.float op s) := by
  refine plans_two_words h hw rfl rfl rfl fun dst a b hd ha hb => ?_
  cases op with
  | add | sub | mul | div => exact .emitting (types_float rfl hd ha hb)

theorem typed_floatMultiplyAdd (h : s.Fits [.register, .value, .value, .value]) (hw : s.Words)
    {subtract : Bool} : WellTyped labels (Plan.floatMultiplyAdd subtract s) := by
  refine plans_two_words h hw rfl rfl rfl fun dst acc a hd hacc ha => ?_
  refine (h.sizedValue hw 3 (.inl rfl) rfl).plans fun b hb => .emitting ?_
  have hsum : (if subtract then BinOp.fsub else .fadd).shifts = false := by
    cases subtract <;> rfl
  have hmul : BinOp.fmul.shifts = false := rfl
  refine .temp_bind .word (by simp [hacc]) fun rc hrc => ?_
  refine .temp_bind .word (by simp [ha]) fun ra hra => ?_
  refine .temp_bind .word (by simp [hb]) fun rb hrb => ?_
  refine .keep_bind (types_floatFlags (by simp) rfl) ?_
  exact .set hd (by simp [Expr.hasWidth_binary hsum, Expr.hasWidth_binary hmul, hrc, hra, hrb])
    trivial

@[simp]
theorem hasWidth_denormal {v : Width} {x : Expr} :
    (denormal x).HasWidth known v ↔ .byte = v ∧ x.HasWidth known .word := by
  simp [denormal]

theorem typed_floatCompare (h : s.Fits [.register, .value, .value]) (hw : s.Words) :
    WellTyped labels (Plan.floatCompare s) := by
  refine plans_two_words h hw rfl rfl rfl fun dst a b hd ha hb => .emitting ?_
  refine .temp_bind .word (by simp [ha]) fun ra hra => ?_
  refine .temp_bind .word (by simp [hb]) fun rb hrb => ?_
  refine .keep_bind (types_floatFlags (by simp) rfl) ?_
  refine .set hd (Expr.hasWidth_foldl_or ?_ ?_) trivial
  · simp [hra, hrb]
  · simp [hra, hrb]

theorem hasWidth_conversion {c : FloatConversion} {a n : Expr} (ha : a.HasWidth known .word)
    (hn : n.HasWidth known .word) : (conversion c a n).value.HasWidth known .word ∧
      (conversion c a n).arg.HasWidth known .word := by
  have hconvert {op : UnOp} (hop : op.converts = true) {e : Expr} (he : e.HasWidth known .word) :
      (Expr.unary op .word e).HasWidth known .word := (Expr.hasWidth_convert hop).2 ⟨rfl, _, he⟩
  have hscale {l r : Expr} (hl : l.HasWidth known .word) (hr : r.HasWidth known .word) :
      (Expr.binary .fscale .word l r).HasWidth known .word :=
    (Expr.hasWidth_binary rfl).2 ⟨rfl, hl, hr⟩
  have hscaled := hscale ha (show (Expr.add .word n (.word 31)).HasWidth known .word by simp [hn])
  cases c with
  | toInt | toIntTrunc | toUInt | toUIntTrunc | ofInt | ofUInt => exact ⟨hconvert rfl ha, ha⟩
  | toFraction | toFractionTrunc => exact ⟨hconvert rfl hscaled, hscaled⟩
  | ofFraction => exact ⟨hscale (hconvert rfl ha) (by simp [hn]), ha⟩
  | rsqrtSeed => exact ⟨(Expr.hasWidth_unary rfl).2 ⟨rfl, ha⟩, ha⟩

theorem types_conversion {c : FloatConversion} (hd : dst.Plain .word) {a n : Expr}
    (ha : a.HasWidth known .word) (hn : n.HasWidth known .word) :
    Types labels known (fun _ _ => True) (do
      floatFlags (conversion c a n).flags (conversion c a n).check [(conversion c a n).arg]
      set dst (conversion c a n).value) := by
  obtain ⟨hvalue, harg⟩ := hasWidth_conversion (c := c) ha hn
  exact .keep_bind (types_floatFlags (by simp [harg.iff]) rfl) (.set hd hvalue trivial)

theorem typed_floatConvert (h : s.Fits (if s.arity = 3 then [.register, .value, .value]
    else [.register, .value])) (hw : s.Words) {c : FloatConversion} :
    WellTyped labels (Plan.floatConvert c s) := by
  unfold Plan.floatConvert
  split at h
  · next h3 =>
    simp only [h3, if_true]
    obtain ⟨e, he, hplain⟩ := h.sizedValue hw 2 (.inl rfl) rfl
    have hn : Reads (some <$> s.value 2) fun n? => n? = some e := by rw [he]; exact .ok rfl
    refine (h.sizedReg hw 0 rfl rfl).plans fun dst hd => ?_
    refine (h.sizedValue hw 1 (.inl rfl) rfl).plans fun a ha => hn.plans fun n? hn? => ?_
    subst hn?
    refine .emitting (.temp_bind .word (by simp [ha]) fun ra hra => ?_)
    refine .temp_bind .word (by simp [hplain]) fun rn hrn => ?_
    exact types_conversion hd (by simp [hra]) (by simp [hrn])
  · next h3 =>
    simp only [h3, if_false]
    have hn : Reads (pure none : Read (Option Expr)) fun n? => n? = none := .ok rfl
    refine (h.sizedReg hw 0 rfl rfl).plans fun dst hd => ?_
    refine (h.sizedValue hw 1 (.inl rfl) rfl).plans fun a ha => hn.plans fun n? hn? => ?_
    subst hn?
    refine .emitting (.temp_bind .word (by simp [ha]) fun ra hra => ?_)
    exact types_conversion hd (by simp [hra]) (by simp)

theorem typed_updateFlags (h : s.Fits [.value]) (hw : s.Words) :
    WellTyped labels (Plan.updateFlags s) := by
  refine (h.sizedValue hw 0 (.inl rfl) rfl).plans fun src hs => .emitting ?_
  refine .temp_bind .word (by simp [hs]) fun r hr => ?_
  exact types_setFlags (by simp) trivial

end Floats

/-! ## All actions -/

/-- A plan whose operands fit and have the right widths is made, and what it emits is typed. -/
theorem plan_types {a : Action} (h : s.Fits (a.signature s.arity)) (hw : s.Sized a.width?)
    (ha : a.addresses = true) : WellTyped a.labels (plan s a) := by
  cases a with
  | add | sub => exact typed_addSub h hw rfl
  | addSat | subSat => exact typed_addSubSat h hw rfl
  | addCarry | addExtended | subCarry | subExtended => exact typed_carry h hw
  | rsub => exact typed_rsub h hw
  | rsubSat => exact typed_rsubSat h hw
  | addScaled => exact typed_addScaled h hw
  | addBitIndex => exact typed_addBitIndex h hw
  | packed => exact typed_packed h hw
  | saturate => exact typed_saturate h hw
  | compare c => exact typed_compare h hw c none
  | compareInto c acc => exact typed_compare h hw c (some acc)
  | anyEqual => exact typed_anyEqual h hw
  | logic => exact typed_logic h hw
  | complement => exact typed_complement h hw
  | shift => exact typed_shift h hw
  | count => exact typed_count h hw
  | condArith => exact typed_condArith h hw
  | select => exact typed_select h hw
  | condMove => exact typed_condMove h hw
  | move => exact typed_move h hw
  | movePair => exact typed_movePair h hw
  | loadAddress => exact typed_loadAddress hw h rfl
  | multiply => exact typed_multiply h hw
  | multiplyAdd => exact typed_multiplyAdd h hw
  | halfMultiply halves hi lo shape sat => cases hi <;> exact typed_halfMultiply h hw
  | fractionMultiply src wide acc round sat => cases acc <;> exact typed_fractionMultiply h hw
  | divide => exact typed_divide h hw
  | divideInit => exact typed_divideInit h hw
  | extract => exact typed_extract h hw
  | insert => exact typed_insert h hw
  | insertMask => exact typed_insertMask h hw
  | extractDouble => exact typed_extractDouble h hw
  | bitLogic => exact typed_bitLogic h hw
  | insertBit => exact typed_insertBit h hw
  | load => exact typed_load hw h rfl
  | store => exact typed_store hw h rfl
  | storeBit => exact typed_storeBit hw h
  | loadModifyStore => exact typed_loadModifyStore hw h
  | swap => exact typed_swap hw h rfl
  | compareSwap => exact typed_compareSwap hw h
  | swapMasked => exact typed_swapMasked hw h
  | context => exact typed_context hw h
  | cache => exact typed_cache hw h
  | jump | loopForever => exact typed_jump h
  | jumpIndirect => exact typed_jumpIndirect h hw
  | jumpLink => exact typed_callDirect h linking_only
  | jumpLinkIndirect => exact typed_callThrough h hw linking_only
  | call => exact typed_callDirect h linking_save
  | callIndirect => exact typed_callThrough h hw linking_save
  | fastCall => exact typed_callDirect h linking_push
  | fastCallIndirect => exact typed_callThrough h hw linking_push
  | ret | retException => exact typed_ret
  | fastRet => exact typed_fastRet
  | retMonitor => exact typed_retMonitor
  | branch => exact typed_branch h hw
  | branchBit => exact typed_branchBit h hw
  | branchStep => exact typed_branchStep h hw
  | loop => exact typed_loop h hw
  | platform => exact typed_platform h (by simpa [Action.addresses] using ha)
  | nop => exact typed_nop
  | trapOn => exact typed_trapOn
  | readCsfr => exact typed_readCsfr h
  | writeCsfr => exact typed_writeCsfr h
  | dataIntrinsic => exact typed_dataIntrinsic h (by simpa [Action.addresses] using ha)
  | float => exact typed_float h hw
  | floatMultiplyAdd => exact typed_floatMultiplyAdd h hw
  | floatCompare => exact typed_floatCompare h hw
  | floatConvert => exact typed_floatConvert h hw
  | updateFlags => exact typed_updateFlags h hw

end Lift

/-! ## Decoded instructions -/

namespace Instruction

variable {isa : Isa} {bytes : List Byte} {addr : Address} {i : Instruction}

/-- What a decoded instruction emits is typed. -/
theorem plan_typed (h : decode isa bytes addr = .ok i) :
    Lift.WellTyped i.row.action.labels i.plan := by
  obtain ⟨hsized, haddresses⟩ := sized h
  exact Lift.plan_types (fits h).1 hsized haddresses

end Instruction

/-- Lifting a decoded instruction appends typed statements; a temporary that one of them reads is
written once in the instruction, and before it is read. -/
theorem lifted_effects_typed {isa : Isa} {bytes : List Byte} {addr : Address} {i : Instruction}
    (h : Instruction.decode isa bytes addr = .ok i) (t : Trace) :
    ∃ stmts next, i.lift t = .ok { t with stmts := t.stmts ++ stmts, nextLabel := next } ∧
      (∀ stmt ∈ stmts, stmt.Typed) ∧
      ∀ k stmt, stmts[k]? = some stmt → ∀ r ∈ stmt.reads, r.isTemp = true →
        (stmts.flatMap Stmt.named).count r = 1 ∧ r ∈ (stmts.take k).flatMap Stmt.named := by
  obtain ⟨e, hp, htypes⟩ := Instruction.plan_typed h
  have hat := htypes (.of t) (by simp)
  refine ⟨_, _, Instruction.lift_of_plan hp t, fun stmt hs => hat.order.typed hs, ?_⟩
  intro k stmt hk r hr ht
  exact hat.order.written_once hk hr ht

/-- `ld.w` from a circular buffer, whose address is kept in the third of five temporaries. -/
theorem lifted_effects_typed_circular : ∃ i stmts next,
    Instruction.decode .v16 [0x29, 0x42, 0x04, 0x05] 0x100 = .ok i ∧
      i.lift .empty = .ok { Trace.empty with stmts := stmts, nextLabel := next } ∧
      (∀ stmt ∈ stmts, stmt.Typed) ∧ stmts[5]?.map Stmt.reads = some [.temp 2] ∧
      (stmts.flatMap Stmt.named).count (.temp 2) = 1 := by
  obtain ⟨i, hi, hfive⟩ : ∃ i, Instruction.decode .v16 [0x29, 0x42, 0x04, 0x05] 0x100 = .ok i ∧
      ((i.lift .empty).toOption.bind fun t => t.stmts[5]?.map Stmt.reads) = some [.temp 2] :=
    ⟨_, rfl, by decide +kernel⟩
  obtain ⟨stmts, next, hl, htyped, honce⟩ := lifted_effects_typed hi .empty
  have hreads : stmts[5]?.map Stmt.reads = some [.temp 2] := by rwa [hl] at hfive
  obtain ⟨stmt, hget, hstmt⟩ := Option.map_eq_some_iff.1 hreads
  exact ⟨i, stmts, next, hi, hl, htyped, hreads, (honce 5 stmt hget (.temp 2) (by simp [hstmt]) rfl).1⟩

end Tricore
