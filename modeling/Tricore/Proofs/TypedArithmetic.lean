import Mathlib
import Tricore.Proofs.Widths

/-!
# Arithmetic is typed

Sums, lanes, comparisons, moves, products and quotients: what each of their plans emits is typed, if
its operands have the widths of the action. Each lemma follows the plan with the rules of `Types`.
-/

namespace Tricore.Lift

variable {labels : Bool} {s : Source} {roles : List Role} {dst : Register} {w : Width}

/-! ## Arithmetic -/

section Arithmetic

variable {lhs rhs : Expr} {op : BinOp}

theorem types_wrapping (hd : dst.Plain .word) (hop : op.shifts = false) (hl : lhs.Plain .word)
    (hr : rhs.Plain .word) : Types labels [] (fun _ _ => True) (wrapping dst op lhs rhs) := by
  refine .temp_bind .double (by simp [Expr.hasWidth_binary hop, hl, hr]) fun wide hwide => ?_
  refine .temp_bind .word (by simp [hwide]) fun result hresult => ?_
  exact .status_set hd (by simp [hwide]) (by simp) (by simp [hresult]) trivial

theorem types_clamped (hd : dst.Plain .word) (hop : op.shifts = false) {sign : Sign}
    (hl : lhs.Plain .word) (hr : rhs.Plain .word) :
    Types labels [] (fun _ _ => True) (clamped sign dst op lhs rhs) := by
  refine .temp_bind .double (by simp [Expr.hasWidth_binary hop, hl, hr]) fun wide hwide => ?_
  exact .status_set hd (by simp [hwide]) (by simp [hwide])
    (by simp [hwide]) trivial

theorem typed_addSub (h : s.Fits (Role.binary s.arity)) (hw : s.Words) (hop : op.shifts = false) :
    WellTyped labels (Plan.addSub op s) := by
  refine (h.wordBinary hw).plans ?_
  rintro ⟨dst, lhs, rhs⟩ ⟨hd, hl, hr⟩
  refine .emitting ?_
  split
  · exact .set hd (by simp [Expr.hasWidth_binary hop, hl, hr]) trivial
  · exact types_wrapping hd hop hl hr

theorem typed_addSubSat (h : s.Fits (Role.binary s.arity)) (hw : s.Words)
    (hop : op.shifts = false) {sign : Sign} : WellTyped labels (Plan.addSubSat op sign s) := by
  refine (h.wordBinary hw).plans ?_
  rintro ⟨dst, lhs, rhs⟩ ⟨hd, hl, hr⟩
  exact .emitting (types_clamped hd hop hl hr)

theorem typed_carry (h : s.Fits (Role.binary s.arity)) (hw : s.Words) {subtract useCarry : Bool} :
    WellTyped labels (Plan.carry subtract useCarry s) := by
  refine (h.wordBinary hw).plans ?_
  rintro ⟨dst, lhs, rhs⟩ ⟨hd, hl, hr⟩
  refine .emitting ?_
  refine .temp_bind .word (by simp [hl]) fun a ha => ?_
  refine .temp_bind .word (by simp [hr]) fun b hb => ?_
  refine .temp_bind .double (by simp) fun unsigned hu => ?_
  refine .temp_bind .double (by simp) fun signed hs => ?_
  refine .temp_bind .word (by simp [hu]) fun result hresult => ?_
  refine .setFlag_bind (by simp) ?_
  exact .status_set hd (by simp [hs]) (by simp) (by simp [hresult]) trivial

theorem sized_reversed (h : s.Fits (if s.arity = 3 then [.register, .value, .value]
    else [.register])) (hw : s.Words) :
    Reads (Plan.reversed s) fun x => x.1.Plain .word ∧ x.2.1.Plain .word ∧ x.2.2.Plain .word := by
  unfold Plan.reversed
  split at h
  · next h3 =>
    simp only [h3]
    exact (h.sizedReg hw 0 rfl rfl).bind fun _ hr => (h.sizedValue hw 2 (.inl rfl) rfl).bind
      fun _ ha => (h.sizedValue hw 1 (.inl rfl) rfl).bind fun _ hb => .ok ⟨hr, ha, hb⟩
  · simp only [show s.arity = 1 from h.arity]
    exact (h.sizedReg hw 0 rfl rfl).bind fun _ hr => (h.sizedValue hw 0 (.inr rfl) rfl).bind
      fun _ hb => .ok ⟨hr, fun _ _ => Expr.hasWidth_word, hb⟩

theorem typed_rsub (h : s.Fits (if s.arity = 3 then [.register, .value, .value] else [.register]))
    (hw : s.Words) : WellTyped labels (Plan.rsub s) := by
  refine (sized_reversed h hw).plans ?_
  rintro ⟨dst, lhs, rhs⟩ ⟨hd, hl, hr⟩
  exact .emitting (types_wrapping hd rfl hl hr)

theorem typed_rsubSat (h : s.Fits (if s.arity = 3 then [.register, .value, .value]
    else [.register])) (hw : s.Words) {sign : Sign} : WellTyped labels (Plan.rsubSat sign s) := by
  refine (sized_reversed h hw).plans ?_
  rintro ⟨dst, lhs, rhs⟩ ⟨hd, hl, hr⟩
  exact .emitting (types_clamped hd rfl hl hr)

theorem typed_addScaled (h : s.Fits [.register, .value, .value, .immediate]) (hw : s.Words) :
    WellTyped labels (Plan.addScaled s) := by
  refine plans_two_words h hw rfl rfl rfl fun dst base index hd hb hi => ?_
  exact (h.imm 3 rfl).plans fun n _ => .emitting (.set hd (by simp [hb, hi]) trivial)

theorem typed_addBitIndex (h : s.Fits [.register, .value, .value]) (hw : s.Words) :
    WellTyped labels (Plan.addBitIndex s) := by
  refine plans_two_words h hw rfl rfl rfl fun dst base index hd hb hi => ?_
  exact .emitting (.set hd (by simp [hb, hi]) trivial)

theorem typed_saturate (h : s.Fits (Role.unary s.arity)) (hw : s.Words) {l : Lane} {sign : Sign} :
    WellTyped labels (Plan.saturate l sign s) := by
  refine (h.wordUnary hw).plans ?_
  rintro ⟨dst, src⟩ ⟨hd, hs⟩
  refine .emitting ?_
  refine .temp_bind .double (by simp [hs]) fun wide hwide => ?_
  exact .set hd (by simp [hwide]) trivial

@[simp]
theorem hasWidth_condition {known : List Register} {v : Width} {negate : Bool} {cond : Expr} :
    (condition negate cond).HasWidth known v ↔ .byte = v ∧ cond.HasWidth known .word := by
  simp [condition]

theorem typed_condArith (h : s.Fits (if s.arity = 4 then [.register, .value, .value, .value]
    else [.register, .value, .value])) (hw : s.Words) {subtract negate : Bool} :
    WellTyped labels (Plan.condArith subtract negate s) := by
  unfold Plan.condArith
  refine Reads.plans (Q := fun x => x.1.Plain .word ∧ x.2.1.Plain .word ∧ x.2.2.1.Plain .word ∧
    x.2.2.2.Plain .word) ?_ ?_
  · split at h
    · next h4 =>
      simp only [h4]
      exact (h.sizedReg hw 0 rfl rfl).bind fun _ hd => (h.sizedValue hw 1 (.inl rfl) rfl).bind
        fun _ hc => (h.sizedValue hw 2 (.inl rfl) rfl).bind fun _ ha =>
        (h.sizedValue hw 3 (.inl rfl) rfl).bind fun _ hb => .ok ⟨hd, hc, ha, hb⟩
    · simp only [show s.arity = 3 from h.arity]
      exact (h.sizedReg hw 0 rfl rfl).bind fun _ hd => (h.sizedValue hw 1 (.inl rfl) rfl).bind
        fun _ hc => (h.sizedValue hw 0 (.inr rfl) rfl).bind fun _ ha =>
        (h.sizedValue hw 2 (.inl rfl) rfl).bind fun _ hb => .ok ⟨hd, hc, ha, hb⟩
  · rintro ⟨dst, cond, lhs, rhs⟩ ⟨hd, hc, hl, hr⟩
    have hop : (if subtract then BinOp.sub else .add).shifts = false := by cases subtract <;> rfl
    refine .emitting ?_
    refine .temp_bind .byte (by simp [hc]) fun taken ht => ?_
    refine .temp_bind .word (by simp [hl]) fun a ha => ?_
    refine .temp_bind .double (by simp [Expr.hasWidth_binary hop, hr]) fun wide hwide => ?_
    refine .temp_bind .word (by simp [hwide]) fun result hresult => ?_
    exact .status_set hd (by simp [hwide]) (by simp) (by simp [ha, hresult]) trivial

@[simp]
theorem hasWidth_shiftCount {known : List Register} {unused : Value} {count : Expr}
    (hc : count.Plain .word) : (shiftCount unused count).HasWidth known .word := by
  unfold shiftCount
  split
  · simp
  · simp [hc]

theorem typed_shift (h : s.Fits (Role.binary s.arity)) (hw : s.Words) {kind : ShiftKind} :
    WellTyped labels (Plan.shift kind s) := by
  refine (h.wordBinary hw).plans ?_
  rintro ⟨dst, src, count⟩ ⟨hd, hs, hc⟩
  refine .emitting ?_
  refine .temp_bind .word (by simp [hs]) fun src hsrc => ?_
  refine .temp_bind .word (hasWidth_shiftCount hc) fun count hcount => ?_
  cases kind with
  | logical => exact .set hd (by simp [hsrc, hcount]) trivial
  | arithmetic =>
    refine .temp_bind .byte (by simp [hcount]) fun left hleft => ?_
    refine .temp_bind .double (by simp) fun wide hwide => ?_
    refine .temp_bind .word (by simp [hsrc, hcount]) fun result hresult => ?_
    refine .setFlag_bind (by simp [hsrc, hcount]) ?_
    exact .status_set hd (by simp [hwide]) (by simp) (by simp [hresult]) trivial
  | saturating =>
    refine .temp_bind .byte (by simp [hcount]) fun left hleft => ?_
    refine .temp_bind .double (by simp) fun wide hwide => ?_
    refine .temp_bind .word (by simp [hsrc, hcount, hwide]) fun result hresult => ?_
    exact .status_set hd (by simp [hwide]) (by simp) (by simp [hresult]) trivial

theorem typed_halfShift (h : s.Fits (Role.binary s.arity)) (hw : s.Words)
    (hop : op.shifts = true) : WellTyped labels (Plan.halfShift op s) := by
  refine (h.wordBinary hw).plans ?_
  rintro ⟨dst, src, count⟩ ⟨hd, hs, hc⟩
  refine .emitting ?_
  refine .temp_bind .word (by simp [hs]) fun src hsrc => ?_
  refine .temp_bind .word (hasWidth_shiftCount hc) fun count hcount => ?_
  have hlane (i : Nat) : (Expr.lane (.reg src) .half i).HasWidth [count, src] .half :=
    Expr.hasWidth_lane (by simp [hsrc])
  refine .set hd (Expr.hasWidth_pack ?_) trivial
  simp [Expr.hasWidth_shift hop, hcount, hlane]

end Arithmetic

/-! ## Lanes -/

section Lanes

variable {known : List Register} {v : Width} {a b e : Expr}

@[simp]
theorem hasWidth_magnitude :
    (magnitude e).HasWidth known v ↔ .double = v ∧ e.HasWidth known .double := by
  simp [magnitude]

@[simp]
theorem hasWidth_less {sign : Sign} : (less sign w a b).HasWidth known v ↔
    .byte = v ∧ a.HasWidth known w ∧ b.HasWidth known w := by
  simp [less]

@[simp]
theorem hasWidth_allOnes : (allOnes w e).HasWidth known v ↔
    w = v ∧ ∃ u, e.HasWidth known u ∧ u.bytes ≤ w.bytes := by
  simp [allOnes]

/-- The value of a lane is typed, and its status is made of bytes. -/
def LaneResult.Typed (known : List Register) (r : LaneResult) : Prop :=
  (∃ u, r.value.HasWidth known u) ∧
    ∀ p ∈ r.status?, p.1.HasWidth known .byte ∧ p.2.HasWidth known .byte

theorem LaneResult.Typed.mono {less more : List Register} {r : LaneResult} (hsub : less ⊆ more)
    (h : r.Typed less) : r.Typed more := by
  obtain ⟨⟨u, hu⟩, hs⟩ := h
  exact ⟨⟨u, hu.mono hsub⟩, fun p hp => ⟨(hs p hp).1.mono hsub, (hs p hp).2.mono hsub⟩⟩

theorem types_exactLane {sign : Sign} {sat : Bool} (he : e.HasWidth known .double) :
    Types labels known LaneResult.Typed (exactLane w sign sat e) := by
  refine .temp_bind .double he fun wide hwide => .pure ⟨?_, ?_⟩
  · cases sat <;> simp [hwide]
  · rintro _ ⟨⟩
    simp [hwide]

theorem types_laneResult {op : LaneOp} (ha : a.HasWidth known w) (hb : b.HasWidth known w) :
    Types labels known LaneResult.Typed (laneResult op w a b) := by
  have hplain {value : Expr} (hv : ∃ u, value.HasWidth known u) :
      Types labels known LaneResult.Typed (pure ⟨value, none⟩) := .pure ⟨hv, by rintro _ ⟨⟩⟩
  cases op with
  | add | addSat | sub | subSat | abs | absSat | absDiff | absDiffSat =>
    exact types_exactLane (by simp [ha.iff, hb.iff])
  | min | max | eq | lt | shift | shiftArithmetic => exact hplain (by simp [ha.iff, hb.iff])

theorem types_lanes (hd : dst.Plain .word) {op : LaneOp} {l : Lane} (ha : a.Plain .word)
    (hb : b.Plain .word) : Types labels [] (fun _ _ => True) (Plan.lanes op l dst a b) := by
  refine .temp_bind .word (by simp [ha]) fun ra hra => ?_
  refine .temp_bind .word (by simp [hb]) fun rb hrb => ?_
  refine .bind (.mapM (Q := LaneResult.Typed) (fun _ _ _ => LaneResult.Typed.mono)
    fun i _ more hmore => ?_) fun more _ parts hparts => ?_
  · have hma : ra ∈ more := hmore (by simp)
    have hmb : rb ∈ more := hmore (by simp)
    exact types_laneResult (Expr.hasWidth_lane (by simp [hra, hma]))
      (Expr.hasWidth_lane (by simp [hrb, hmb]))
  · refine .temp_bind .word (Expr.hasWidth_pack ?_) fun result hresult => ?_
    · intro e he
      obtain ⟨part, hpart, rfl⟩ := List.mem_map.1 he
      exact (hparts part hpart).1
    · have hflags : ∀ p ∈ parts.filterMap (·.status?),
          p.1.HasWidth (result :: more) .byte ∧ p.2.HasWidth (result :: more) .byte := by
        intro p hp
        obtain ⟨part, hpart, hstatus⟩ := List.mem_filterMap.1 hp
        exact ((hparts part hpart).mono (List.subset_cons_self result more)).2 p hstatus
      cases hf : parts.filterMap (·.status?) with
      | nil => exact .set hd (by simp [hresult]) trivial
      | cons first rest =>
        rw [hf] at hflags
        refine .status_set hd (Expr.hasWidth_any ?_) (Expr.hasWidth_any ?_) (by simp [hresult])
          trivial
        all_goals
          intro e he
          obtain ⟨p, hp, rfl⟩ := List.mem_map.1 he
        · exact (hflags p hp).1
        · exact (hflags p hp).2

theorem typed_lanes (h : s.Fits (Role.binary s.arity)) (hw : s.Words) {op : LaneOp} {l : Lane} :
    WellTyped labels (do let (dst, a, b) ← s.binary; emitting (Plan.lanes op l dst a b)) := by
  refine (h.wordBinary hw).plans ?_
  rintro ⟨dst, a, b⟩ ⟨hd, ha, hb⟩
  exact .emitting (types_lanes hd ha hb)

theorem typed_packed {op : LaneOp} {l : Lane} (h : s.Fits ((Action.packed op l).signature s.arity))
    (hw : s.Words) : WellTyped labels (Plan.packed op l s) := by
  cases op with
  | shift | shiftArithmetic => exact typed_halfShift h hw rfl
  | abs | absSat =>
    exact (h.sizedReg hw 0 rfl rfl).plans fun _ hd => (h.sizedValue hw 1 (.inl rfl) rfl).plans
      fun _ ha => .emitting (types_lanes hd ha fun _ _ => Expr.hasWidth_const)
  | _ => exact typed_lanes h hw

end Lanes

/-! ## Comparisons, logic and moves -/

theorem typed_compare (h : s.Fits (Role.binary s.arity)) (hw : s.Words) (c : Condition)
    (acc : Option Combine) : WellTyped labels (Plan.compare c acc s) := by
  unfold Role.binary at h
  unfold Plan.compare
  refine Reads.plans (Q := fun x => x.1.Plain .word ∧ x.2.1.Plain .word ∧ x.2.2.Plain .word) ?_ ?_
  · split at h
    · next h3 =>
      simp only [h3]
      exact (h.sizedReg hw 0 rfl rfl).bind fun _ hd => (h.sizedValue hw 1 (.inl rfl) rfl).bind
        fun _ ha => (h.sizedValue hw 2 (.inl rfl) rfl).bind fun _ hb => .ok ⟨hd, ha, hb⟩
    · simp only [show s.arity = 2 from h.arity]
      exact (h.sizedReg hw 0 rfl rfl).bind fun _ hd => (h.sizedValue hw 1 (.inl rfl) rfl).bind
        fun _ ha => .ok ⟨hd, ha, fun _ _ => Expr.hasWidth_word⟩
  · rintro ⟨dst, lhs, rhs⟩ ⟨hd, hl, hr⟩
    refine .emitting (.set hd ?_ trivial)
    cases acc with
    | none => simp [hl, hr]
    | some acc => simp [hl, hr, hd.1, hd.2]

theorem typed_anyEqual (h : s.Fits (Role.binary s.arity)) (hw : s.Words) {l : Lane} :
    WellTyped labels (Plan.anyEqual l s) := by
  refine (h.wordBinary hw).plans ?_
  rintro ⟨dst, a, b⟩ ⟨hd, ha, hb⟩
  refine .emitting ?_
  refine .temp_bind .word (by simp [ha]) fun ra hra => ?_
  refine .temp_bind .word (by simp [hb]) fun rb hrb => ?_
  have hany : (Expr.any ((List.range l.count).map fun i =>
      .compare .eq l.width (Expr.lane (.reg ra) l i) (Expr.lane (.reg rb) l i))).HasWidth
        [rb, ra] .byte := by
    refine Expr.hasWidth_any fun e he => ?_
    obtain ⟨i, -, rfl⟩ := List.mem_map.1 he
    have hla : (Expr.lane (.reg ra) l i).HasWidth [rb, ra] l.width :=
      Expr.hasWidth_lane (by simp [hra])
    have hlb : (Expr.lane (.reg rb) l i).HasWidth [rb, ra] l.width :=
      Expr.hasWidth_lane (by simp [hrb])
    simp [hla, hlb]
  exact .set hd (by simp [hany.iff]) trivial

theorem typed_logic (h : s.Fits (Role.binary s.arity)) (hw : s.Words) {op : LogicOp} :
    WellTyped labels (Plan.logic op s) := by
  refine (h.wordBinary hw).plans ?_
  rintro ⟨dst, a, b⟩ ⟨hd, ha, hb⟩
  exact .emitting (.set hd (by simp [ha, hb]) trivial)

theorem typed_complement (h : s.Fits (Role.unary s.arity)) (hw : s.Words) :
    WellTyped labels (Plan.complement s) := by
  refine (h.wordUnary hw).plans ?_
  rintro ⟨dst, src⟩ ⟨hd, hs⟩
  exact .emitting (.set hd (by simp [hs]) trivial)

theorem hasWidth_counted {known : List Register} {kind : CountKind} {e : Expr}
    (he : e.HasWidth known w) : (Plan.counted kind w e).HasWidth known w := by
  have hclz (x : Expr) : (Expr.unary .clz w x).HasWidth known w ↔ x.HasWidth known w := by
    rw [Expr.hasWidth_unary rfl, eq_self_iff_true, true_and]
  cases kind <;> simp [Plan.counted, hclz, he]

theorem typed_count (h : s.Fits (Role.unary s.arity)) (hw : s.Words) {kind : CountKind}
    {l : Lane} : WellTyped labels (Plan.count kind l s) := by
  refine (h.wordUnary hw).plans ?_
  rintro ⟨dst, src⟩ ⟨hd, hs⟩
  refine .emitting ?_
  refine .temp_bind .word (by simp [hs]) fun r hr => ?_
  refine .set hd (Expr.hasWidth_pack fun e he => ?_) trivial
  obtain ⟨i, -, rfl⟩ := List.mem_map.1 he
  exact ⟨_, hasWidth_counted (Expr.hasWidth_lane (by simp [hr]))⟩

theorem typed_select (h : s.Fits [.register, .value, .value, .value]) (hw : s.Words)
    {negate : Bool} : WellTyped labels (Plan.select negate s) := by
  refine plans_two_words h hw rfl rfl rfl fun dst cond yes hd hc hy => ?_
  refine (h.sizedValue hw 3 (.inl rfl) rfl).plans fun no hn => ?_
  exact .emitting (.set hd (by simp [hc, hy, hn]) trivial)

theorem typed_condMove (h : s.Fits [.register, .value, .value]) (hw : s.Words) {negate : Bool} :
    WellTyped labels (Plan.condMove negate s) := by
  refine plans_two_words h hw rfl rfl rfl fun dst cond src hd hc hs => ?_
  exact .emitting (.set hd (by simp [hc, hs, hd.1, hd.2]) trivial)

theorem typed_move (h : s.Fits [.register, .value]) (hw : s.Sized Action.move.width?) :
    WellTyped labels (Plan.move s) := by
  refine (h.plainReg 0 rfl).plans fun dst hd => ?_
  refine (h.sizedValue hw 1 (.inl rfl) rfl).plans fun src hs => ?_
  refine .emitting (.set hd ?_ trivial)
  rcases dst.width_cases with hdst | hdst
  · simp [hdst, hs]
  · simp [hdst, hs]

theorem typed_movePair (h : s.Fits [.register, .value, .value])
    (hw : s.Sized Action.movePair.width?) : WellTyped labels (Plan.movePair s) := by
  refine plans_two_words h hw rfl rfl rfl fun dst hi lo hd hh hl => ?_
  exact .emitting (.set hd (by simp [hh, hl]) trivial)


/-! ## Products and quotients -/

section Products

variable {known : List Register} {v : Width} {x y acc product result sum : Register}
  {sign : Sign} {sat : Bool}

/-- A 64-bit temporary. -/
abbrev Double (known : List Register) (r : Register) : Prop := r.width = .double ∧ r ∈ known

theorem types_setWord (hd : dst.Plain .word) (hs : Double known sum) :
    Types labels known (fun _ _ => True) (setWord dst sign sat (.reg sum)) :=
  .status_set hd (by simp [hs]) (by simp [hs]) (by simp [hs]) trivial

theorem types_setProduct (hd : dst.Plain .double) (hp : Double known product) :
    Types labels known (fun _ _ => True) (setProduct dst (.reg product)) :=
  .status_set hd (by simp) (by simp [hp]) (by simp [hp]) trivial

@[simp]
theorem hasWidth_accumulated {op : Accumulate} {a p : Expr} (ha : a.HasWidth known .double)
    (hp : p.HasWidth known .double) : (accumulated op a p).HasWidth known .double := by
  cases op <;> simp [accumulated, ha, hp]

@[simp]
theorem hasWidth_signOverflow {subtract : Bool} {a p r : Expr} (ha : a.HasWidth known .double)
    (hp : p.HasWidth known .double) (hr : r.HasWidth known .double) :
    (signOverflow subtract a p r).HasWidth known .byte := by
  simp [signOverflow, ha, hp, hr]

@[simp]
theorem hasWidth_clampedToward {c a r : Expr} : (clampedToward c a r).HasWidth known v ↔
    .double = v ∧ (∃ u, c.HasWidth known u) ∧ a.HasWidth known .double ∧
      r.HasWidth known .double := by
  simp [clampedToward]

theorem types_setAccumulated (hd : dst.Plain .double) {op : Accumulate} (ha : Double known acc)
    (hp : Double known product) :
    Types labels known (fun _ _ => True) (setAccumulated dst op sat (.reg acc) (.reg product)) := by
  refine .temp_bind .double (hasWidth_accumulated (by simp [ha]) (by simp [hp])) fun r hr => ?_
  refine .temp_bind .byte (hasWidth_signOverflow (by simp [ha]) (by simp [hp]) (by simp [hr]))
    fun c hc => ?_
  exact .status_set hd (by simp) (by simp) (by simp [ha, hr]) trivial

theorem types_setAccumulatedU (hd : dst.Plain .double) {subtract : Bool} (ha : Double known acc)
    (hp : Double known product) : Types labels known (fun _ _ => True)
      (setAccumulatedU dst subtract sat (.reg acc) (.reg product)) := by
  refine .temp_bind .double (hasWidth_accumulated (by simp [ha]) (by simp [hp])) fun r hr => ?_
  refine .temp_bind .byte (by simp [ha, hp, hr]) fun c hc => ?_
  exact .status_set hd (by simp) (by simp) (by simp [hr]) trivial

theorem typed_multiply {wide : Bool} (h : s.Fits (Role.binary s.arity))
    (hw : s.Sized (Action.multiply sign wide sat).width?) :
    WellTyped labels (Plan.multiply sign wide sat s) := by
  cases wide with
  | true =>
    refine (h.sizedBinary hw rfl rfl rfl rfl).plans ?_
    rintro ⟨dst, a, b⟩ ⟨hd, ha, hb⟩
    refine .emitting ?_
    refine .temp_bind .double ?_ fun product hp => types_setProduct hd ⟨hp, by simp⟩
    rcases ha with ha | ha <;> simp [ha, hb]
  | false =>
    refine (h.wordBinary hw).plans ?_
    rintro ⟨dst, a, b⟩ ⟨hd, ha, hb⟩
    refine .emitting ?_
    exact .temp_bind .double (by simp [ha, hb]) fun product hp => types_setWord hd ⟨hp, by simp⟩

theorem typed_multiplyAdd {subtract wide : Bool} (h : s.Fits [.register, .value, .value, .value])
    (hw : s.Sized (Action.multiplyAdd subtract sign wide sat).width?) :
    WellTyped labels (Plan.multiplyAdd subtract sign wide sat s) := by
  cases wide with
  | true =>
    refine (h.sizedReg hw 0 rfl rfl).plans fun dst hd => ?_
    refine (h.sizedValue hw 1 (.inl rfl) rfl).plans fun acc hacc => ?_
    refine (h.sizedValue hw 2 (.inl rfl) rfl).plans fun a ha => ?_
    refine (h.sizedValue hw 3 (.inl rfl) rfl).plans fun b hb => ?_
    refine .emitting ?_
    refine .temp_bind .double (by simp [ha, hb]) fun product hp => ?_
    refine .temp_bind .double (by simp [hacc]) fun start hs => ?_
    cases sign with
    | signed => exact types_setAccumulated hd ⟨hs, by simp⟩ ⟨hp, by simp⟩
    | unsigned => exact types_setAccumulatedU hd ⟨hs, by simp⟩ ⟨hp, by simp⟩
  | false =>
    refine (h.sizedReg hw 0 rfl rfl).plans fun dst hd => ?_
    refine (h.sizedValue hw 1 (.inl rfl) rfl).plans fun acc hacc => ?_
    refine (h.sizedValue hw 2 (.inl rfl) rfl).plans fun a ha => ?_
    refine (h.sizedValue hw 3 (.inl rfl) rfl).plans fun b hb => ?_
    refine .emitting ?_
    refine .temp_bind .double (by simp [ha, hb]) fun product hp => ?_
    refine .temp_bind .double (hasWidth_accumulated (by simp [hacc]) ?_) fun sum hsum =>
      types_setWord hd ⟨hsum, by simp⟩
    cases sign with
    | signed => simp [hp]
    | unsigned => simp [hp]

end Products

/-! ## Products of fractions -/

section Fractions

variable {known : List Register} {v : Width} {a b e : Expr} {n : Nat} {sat : Bool}

theorem hasWidth_half {upper : Bool} (he : e.HasWidth known .word) :
    (half e upper).HasWidth known .half := by
  cases upper <;> simp [half, he.iff]

@[simp]
theorem hasWidth_bothLeast {least : Value} : (bothLeast w least a b).HasWidth known v ↔
    .byte = v ∧ a.HasWidth known w ∧ b.HasWidth known w := by
  simp [bothLeast]

@[simp]
theorem hasWidth_shiftedProduct : (shiftedProduct a b n).HasWidth known v ↔
    .double = v ∧ (∃ u, a.HasWidth known u) ∧ ∃ u, b.HasWidth known u := by
  simp [shiftedProduct]

theorem hasWidth_halfProduct (ha : a.HasWidth known .half) (hb : b.HasWidth known .half) :
    (halfProduct a b n).HasWidth known .double := by
  simp [halfProduct, ha.iff, hb.iff]

theorem hasWidth_wordProduct {wide : Bool} (ha : a.HasWidth known .word)
    (hb : b.HasWidth known .word) : (wordProduct wide a b n).HasWidth known .double := by
  simp [wordProduct, ha.iff, hb.iff]

theorem hasWidth_fractionProduct {src : FractionSource} {wide : Bool}
    (ha : a.HasWidth known .word) (hb : b.HasWidth known .word) :
    (fractionProduct src wide a b n).HasWidth known .double := by
  have hhalf (upper : Bool) : (half b upper).HasWidth known .half := hasWidth_half hb
  have hproduct (upper : Bool) : (halfProduct (half a upper) (half b upper) n).HasWidth known .double :=
    hasWidth_halfProduct (hasWidth_half ha) (hhalf upper)
  cases src with
  | words => exact hasWidth_wordProduct ha hb
  | lower | upper => simp [fractionProduct, ha.iff, (hhalf _).iff]
  | lowers | uppers => simp [fractionProduct, hproduct]

@[simp]
theorem hasWidth_rounding {round : Bool} (he : e.HasWidth known .double) :
    (rounding round e).HasWidth known .double := by
  simp [rounding, he]

@[simp]
theorem hasWidth_upperHalf : (upperHalf e).HasWidth known v ↔
    .word = v ∧ e.HasWidth known .word := by
  simp [upperHalf]

@[simp]
theorem hasWidth_fit (he : e.HasWidth known .double) : (fit sat e).HasWidth known .word := by
  simp [fit, he.iff]

/-- Sums and differences are no shifts. -/
theorem shifts_addOrSub {c : Prop} [Decidable c] :
    (if c then BinOp.add else .sub).shifts = false := by
  split <;> rfl

theorem types_setMerged (hd : dst.Plain .double) {acc? : Option Expr} {hi lo : Accumulate}
    {p1 p0 : Register} (hacc : ∀ e ∈ acc?, ∃ r, e = .reg r ∧ Double known r)
    (h1 : Double known p1) (h0 : Double known p0) : Types labels known (fun _ _ => True)
      (setMerged dst acc? hi lo sat (.reg p1) (.reg p0)) := by
  refine .temp_bind .double (by simp [Expr.hasWidth_binary shifts_addOrSub, h1, h0])
    fun merged hm => ?_
  cases acc? with
  | none => exact types_setProduct hd ⟨hm, by simp⟩
  | some acc =>
    obtain ⟨r, rfl, hr, hmem⟩ := hacc acc rfl
    exact types_setAccumulated hd ⟨hr, by simp [hmem]⟩ ⟨hm, by simp⟩

/-- The width of the accumulator of a packed multiply. -/
def accWidth (shape : ProductShape) : Width := if shape = .rounded then .word else .double

theorem hasWidth_accumulatorWords {shape : ProductShape} {acc? : Option Expr}
    (hacc : ∀ e ∈ acc?, e.HasWidth known (accWidth shape)) :
    (accumulatorWords shape acc?).1.HasWidth known .double ∧
      (accumulatorWords shape acc?).2.HasWidth known .double := by
  cases acc? with
  | none => simp [accumulatorWords]
  | some acc =>
    have hw := hacc acc rfl
    cases shape <;> simp [accumulatorWords, hw.iff, accWidth]

theorem types_setSeparate {acc? : Option Expr} {hi lo : Accumulate} {shape : ProductShape}
    (hd : dst.Plain (if shape = .pair then .double else .word)) {p1 p0 : Register}
    (hacc : ∀ e ∈ acc?, ∃ r, e = .reg r ∧ r.width = accWidth shape ∧ r ∈ known)
    (h1 : Double known p1) (h0 : Double known p0) : Types labels known (fun _ _ => True)
      (setSeparate dst acc? hi lo shape sat (.reg p1) (.reg p0)) := by
  have hwords (more : List Register) (hmore : known ⊆ more) :
      (accumulatorWords shape acc?).1.HasWidth more .double ∧
        (accumulatorWords shape acc?).2.HasWidth more .double := by
    refine hasWidth_accumulatorWords fun e he => ?_
    obtain ⟨r, rfl, hr, hmem⟩ := hacc e he
    simp [hr, hmore hmem]
  refine .temp_bind .double (hasWidth_rounding (hasWidth_accumulated (hwords _ (by simp)).1
    (by simp [h1]))) fun w1 hw1 => ?_
  refine .temp_bind .double (hasWidth_rounding (hasWidth_accumulated (hwords _ (by simp)).2
    (by simp [h0]))) fun w0 hw0 => ?_
  have hfit1 : (fit sat (.reg w1)).HasWidth (w0 :: w1 :: known) .word :=
    hasWidth_fit (by simp [hw1])
  have hfit0 : (fit sat (.reg w0)).HasWidth (w0 :: w1 :: known) .word :=
    hasWidth_fit (by simp [hw0])
  refine .status_set hd (by simp [hw1, hw0]) (by simp [hw1, hw0]) ?_ trivial
  cases shape <;> simp [hfit1.iff, hfit0.iff]

/-- The operands of a fraction multiply: with an accumulator there is one more source. -/
theorem plans_sized_fractions {widths : Nat → Option Width} {Q : Emit Unit → Prop}
    {acc : Accumulate} {k : Register → Option Expr → Expr → Expr → Nat → Plan} {wa : Width}
    (h : s.Fits (if acc = .none then [.register, .value, .value, .immediate]
      else [.register, .value, .value, .value, .immediate])) (hw : s.Sized widths)
    (h0 : widths 0 = some w) (hacc : acc ≠ .none → widths 1 = some wa)
    (hrest : ∀ i, (if acc = .none then 1 else 2) ≤ i → widths i = some .word)
    (hk : ∀ dst acc? a b n, dst.Plain w → (∀ e ∈ acc?, e.Plain wa) → a.Plain .word →
      b.Plain .word → Plans (k dst acc? a b n) Q) :
    Plans (do
      let dst ← s.reg 0
      let acc? ← (if acc = .none then pure none else some <$> s.value 1 : Read (Option Expr))
      let first := if acc = .none then 1 else 2
      let a ← s.value first
      let b ← s.value (first + 1)
      let n ← s.count (first + 2)
      k dst acc? a b n) Q := by
  by_cases ha : acc = .none
  · simp only [ha, if_true] at h hrest ⊢
    have hnone : Reads (pure none : Read (Option Expr)) fun acc? => ∀ e ∈ acc?, e.Plain wa :=
      .ok (by rintro _ ⟨⟩)
    exact (h.sizedReg hw 0 rfl h0).plans fun dst hd => hnone.plans fun acc? hacc? =>
      (h.sizedValue hw 1 (.inl rfl) (hrest 1 (by omega))).plans fun a ha =>
      (h.sizedValue hw 2 (.inl rfl) (hrest 2 (by omega))).plans fun b hb =>
      (h.count 3 rfl).plans fun n _ => hk dst acc? a b n hd hacc? ha hb
  · simp only [ha, if_false] at h hrest ⊢
    have hsome : Reads (some <$> s.value 1) fun acc? => ∀ e ∈ acc?, e.Plain wa := by
      obtain ⟨e, he, hplain⟩ := h.sizedValue hw 1 (.inl rfl) (hacc ha)
      rw [he]
      exact .ok (by rintro _ ⟨⟩; exact hplain)
    exact (h.sizedReg hw 0 rfl h0).plans fun dst hd => hsome.plans fun acc? hacc? =>
      (h.sizedValue hw 2 (.inl rfl) (hrest 2 (by omega))).plans fun a ha =>
      (h.sizedValue hw 3 (.inl rfl) (hrest 3 (by omega))).plans fun b hb =>
      (h.count 4 rfl).plans fun n _ => hk dst acc? a b n hd hacc? ha hb

theorem typed_halfMultiply {halves : HalfPair} {hi lo : Accumulate} {shape : ProductShape}
    (h : s.Fits (if hi = .none then [.register, .value, .value, .immediate]
      else [.register, .value, .value, .value, .immediate]))
    (hw : s.Sized (Action.halfMultiply halves hi lo shape sat).width?) :
    WellTyped labels (Plan.halfMultiply halves hi lo shape sat s) := by
  have hacc : hi ≠ .none →
      (Action.halfMultiply halves hi lo shape sat).width? 1 = some (accWidth shape) := by
    intro hne
    cases shape <;> simp [Action.width?, accWidth, hne]
  have hrest (i : Nat) (hle : (if hi = .none then 1 else 2) ≤ i) :
      (Action.halfMultiply halves hi lo shape sat).width? i = some .word := by
    have h0 : i ≠ 0 := by split at hle <;> omega
    have h1 : ¬ (i = 1 ∧ hi ≠ .none ∧ shape ≠ .rounded) := by
      rintro ⟨rfl, hne, -⟩
      rw [if_neg hne] at hle
      omega
    simp only [Action.width?, h0, h1, if_false]
  refine plans_sized_fractions h hw rfl hacc hrest fun dst acc? a b n hd hacc? ha hb => ?_
  refine .emitting ?_
  refine .bind (Q := fun more acc? => ∀ e ∈ acc?, ∃ r, e = .reg r ∧ r.width = accWidth shape ∧
    r ∈ more) ?_ fun more _ acc? hkept => ?_
  · cases acc? with
    | none => exact .pure (by rintro _ ⟨⟩)
    | some acc =>
      have hkept : (accWidth shape).kept = accWidth shape := by cases shape <;> rfl
      show Types labels [] _ (temp acc >>= fun e => pure (some e))
      refine .temp_bind (accWidth shape) (by simp [hacc? acc rfl]) fun r hr => .pure ?_
      rintro _ ⟨⟩
      exact ⟨r, rfl, hr.trans hkept, by simp⟩
  · have hfact (known : List Register) {r : Register} (upper : Bool) (hr : r.width = .word)
        (hm : r ∈ known) : (half (.reg r) upper).HasWidth known .half :=
      hasWidth_half (by simp [hr, hm])
    refine .temp_bind .word (by simp [ha]) fun ra hra => ?_
    refine .temp_bind .word (by simp [hb]) fun rb hrb => ?_
    refine .temp_bind .double (hasWidth_halfProduct (hfact _ _ hra (by simp))
      (hfact _ _ hrb (by simp))) fun p1 hp1 => ?_
    refine .temp_bind .double (hasWidth_halfProduct (hfact _ _ hra (by simp))
      (hfact _ _ hrb (by simp))) fun p0 hp0 => ?_
    have hkept' : ∀ e ∈ acc?, ∃ r, e = .reg r ∧ r.width = accWidth shape ∧
        r ∈ p0 :: p1 :: rb :: ra :: more := by
      intro e he
      obtain ⟨r, rfl, hr, hm⟩ := hkept e he
      exact ⟨r, rfl, hr, by simp [hm]⟩
    cases shape with
    | merged => exact types_setMerged hd hkept' ⟨hp1, by simp⟩ ⟨hp0, by simp⟩
    | pair | rounded | roundedWide =>
      exact types_setSeparate hd hkept' ⟨hp1, by simp⟩ ⟨hp0, by simp⟩

theorem typed_fractionMultiply {src : FractionSource} {wide round : Bool} {acc : Accumulate}
    (h : s.Fits (if acc = .none then [.register, .value, .value, .immediate]
      else [.register, .value, .value, .value, .immediate]))
    (hw : s.Sized (Action.fractionMultiply src wide acc round sat).width?) :
    WellTyped labels (Plan.fractionMultiply src wide acc round sat s) := by
  have hacc : acc ≠ .none → (Action.fractionMultiply src wide acc round sat).width? 1 =
      some (if wide then .double else .word) := by
    intro hne
    cases wide <;> simp [Action.width?, Action.pairsFirst, hne]
  have hrest (i : Nat) (hle : (if acc = .none then 1 else 2) ≤ i) :
      (Action.fractionMultiply src wide acc round sat).width? i = some .word := by
    cases wide with
    | true => simp only [Action.width?, Action.pairsFirst, if_true, if_neg (Nat.not_lt.2 hle)]
    | false => rfl
  have h0 : (Action.fractionMultiply src wide acc round sat).width? 0 =
      some (if wide then .double else .word) := by
    cases wide <;> cases acc <;> rfl
  refine plans_sized_fractions h hw h0 hacc hrest fun dst acc? a b n hd hacc? ha hb => ?_
  refine .emitting ?_
  refine .temp_bind .word (by simp [ha]) fun ra hra => ?_
  refine .temp_bind .word (by simp [hb]) fun rb hrb => ?_
  refine .temp_bind .double (hasWidth_fractionProduct (by simp [hra]) (by simp [hrb]))
    fun product hp => ?_
  cases wide with
  | true =>
    cases acc? with
    | none => exact types_setProduct hd ⟨hp, by simp⟩
    | some value =>
      exact .temp_bind .double (by simp [hacc? value rfl]) fun start hs =>
        types_setAccumulated hd ⟨hs, by simp⟩ ⟨hp, by simp⟩
  | false =>
    refine .temp_bind .double (hasWidth_rounding (hasWidth_accumulated ?_ (by simp [hp])))
      fun result hr => ?_
    · cases acc? with
      | none => simp
      | some value => simp [hacc? value rfl]
    · have hfit : (fit sat (.reg result)).HasWidth [result, product, rb, ra] .word :=
        hasWidth_fit (by simp [hr])
      exact .status_set hd (by simp [hr]) (by simp [hr]) (by simp [hfit.iff]) trivial

end Fractions

/-! ## Quotients -/

section Quotients

variable {known : List Register} {a b : Expr} {sign : Sign}

theorem hasWidth_divisionOverflow (ha : a.HasWidth known .word) (hb : b.HasWidth known .word) :
    (divisionOverflow sign a b).HasWidth known .byte := by
  cases sign <;> simp [divisionOverflow, ha, hb]

theorem hasWidth_dividend {n : Nat} (ha : a.HasWidth known .word) (hb : b.HasWidth known .word) :
    (dividend sign n a b).HasWidth known .double := by
  cases sign <;> simp [dividend, ha.iff, hb]

theorem types_divide {div mod : BinOp} (hdiv : div.shifts = false) (hmod : mod.shifts = false)
    (hd : dst.Plain .double) (ha : a.Plain .word) (hb : b.Plain .word) :
    Types labels [] (fun _ _ => True) (do
      let a ← temp a
      let b ← temp b
      let quotient ← temp (.binary div .word a b)
      overflowStatus (divisionOverflow sign a b) quotient.advanced
      set dst (.pair (.binary mod .word a b) quotient)) := by
  refine .temp_bind .word (by simp [ha]) fun ra hra => ?_
  refine .temp_bind .word (by simp [hb]) fun rb hrb => ?_
  refine .temp_bind .word (by simp [Expr.hasWidth_binary hdiv, hra, hrb]) fun quotient hq => ?_
  refine .keep_bind (.overflowStatus (hasWidth_divisionOverflow (by simp [hra]) (by simp [hrb]))
    (by simp) rfl) ?_
  exact .set hd (by simp [Expr.hasWidth_binary hmod, hra, hrb]) trivial

theorem typed_divide (h : s.Fits [.register, .value, .value])
    (hw : s.Sized (Action.divide sign).width?) : WellTyped labels (Plan.divide sign s) := by
  refine plans_two_words h hw rfl rfl rfl fun dst a b hd ha hb => ?_
  cases sign with
  | signed | unsigned => exact .emitting (types_divide rfl rfl hd ha hb)

theorem typed_divideInit {l : Lane} (h : s.Fits [.register, .value, .value])
    (hw : s.Sized (Action.divideInit l sign).width?) :
    WellTyped labels (Plan.divideInit l sign s) := by
  refine plans_two_words h hw rfl rfl rfl fun dst a b hd ha hb => .emitting ?_
  refine .temp_bind .word (by simp [ha]) fun ra hra => ?_
  refine .temp_bind .word (by simp [hb]) fun rb hrb => ?_
  refine .keep_bind (.overflowStatus (hasWidth_divisionOverflow (by simp [hra]) (by simp [hrb]))
    (by simp) rfl) ?_
  exact .set hd (hasWidth_dividend (by simp [hra]) (by simp [hrb])) trivial

end Quotients

end Tricore.Lift
