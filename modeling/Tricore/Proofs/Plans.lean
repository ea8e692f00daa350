import Mathlib
import Tricore.Proofs.Emission

/-!
# Plans

Every plan whose operands fit the signature of its action is made, and what it emits is tame: it
writes the special registers in `Action.special` only, and the flags that `Action.flags` lists
(`Lift.plan_sound`). There is one lemma for each family of actions; each follows the plan, operand by
operand and statement by statement.
-/

namespace Tricore

/-- The overflow flags with their sticky copies, in the order they are written in. -/
def Flag.overflows : List Flag := [.v, .sv, .av, .sav]

/-- The lanes report overflow. -/
def LaneOp.reports : LaneOp → Bool
  | add | addSat _ | sub | subSat _ | abs | absSat | absDiff | absDiffSat => true
  | min _ | max _ | eq | lt _ | shift | shiftArithmetic => false

/-- The exceptions that a float operation reports, before their summary. -/
def FloatOp.raised : FloatOp → List Flag
  | add | sub | mul => [.fi, .fv, .fu, .fx]
  | div => [.fi, .fv, .fz, .fu, .fx]

/-- The exceptions that a conversion reports, before their summary. -/
def FloatConversion.raised : FloatConversion → List Flag
  | toInt | toIntTrunc | toUInt | toUIntTrunc | toFraction | toFractionTrunc => [.fi, .fx]
  | ofInt | ofUInt | ofFraction => [.fx]
  | rsqrtSeed => [.fi]

namespace Action

/-- The flags that an action writes, in order; sums that go to an address register write none. -/
def flags (first : Option Shape) : Action → List Flag
  | add | sub => if first = some .address then [] else Flag.overflows
  | addSat _ | subSat _ | rsub | rsubSat _ | condArith _ _ => Flag.overflows
  | multiply _ _ _ | multiplyAdd _ _ _ _ => Flag.overflows
  | halfMultiply _ _ _ _ _ | fractionMultiply _ _ _ _ _ => Flag.overflows
  | addCarry | addExtended | subCarry | subExtended => .c :: Flag.overflows
  | packed op _ => if op.reports then Flag.overflows else []
  | shift .arithmetic => .c :: Flag.overflows
  | shift .saturating => Flag.overflows
  | divide _ | divideInit _ _ => [.v, .sv, .av]
  | float op => op.raised ++ [.fs]
  | floatMultiplyAdd _ => FloatOp.raised .add ++ [.fs]
  | floatCompare => [.fi] ++ [.fs]
  | floatConvert c => c.raised ++ [.fs]
  | updateFlags => Flag.floating
  | _ => []

/-- The action may set the program counter. -/
def leaves : Action → Bool
  | writeCsfr => true
  | a =>
    match a.flow with
    | .fallThrough | .unresolved => false
    | _ => true

/-- The special registers that an action may write, with the operands it is given. -/
def special (operands : List Operand) : Action → List Register
  | call | callIndirect => [.pc, .pcxi]
  | ret | retException | retMonitor => [.pc, .pcxi, .psw]
  | context i | platform i => i.implied.filter Register.isSpecial
  | writeCsfr => operands.filterMap fun o =>
    match o with
    | .csfr offset => some (Register.canonical (.csfr offset))
    | _ => none
  | a => if a.leaves then [.pc] else []

/-- The intrinsic of the action has the registers it writes among its outputs. -/
def declares : Action → Bool
  | context i => decide (i.implied ⊆ Lift.contextOutputs i)
  | platform .disableInterruptsSaving | platform .saveLowerContext | platform .bisr
  | platform .restoreLowerContext => true
  | cache i | platform i | dataIntrinsic i => i.implied.isEmpty
  | _ => true

end Action

namespace Opcode

theorem flags_listed : ∀ g ∈ table, ∀ r ∈ g.rows,
    r.flags = .ofList (r.action.flags r.shapes[0]?) := by decide +kernel

theorem actions_declare : ∀ g ∈ table, ∀ r ∈ g.rows, r.action.declares = true := by
  decide +kernel

end Opcode

namespace Lift

variable {special : List Register} {fs : List Flag} {s : Source} {dst : Register}

/-- The plan is made, and what it emits is tame and writes the flags. -/
abbrev Sound (special : List Register) (fs : List Flag) (p : Plan) : Prop :=
  Plans p (Emits special fs fun _ => True)

/-- A destination and two sources. -/
theorem plans_two {Q : Emit Unit → Prop} {k : Register → Expr → Expr → Plan}
    {roles : List Role} (h : s.Fits (.register :: .value :: .value :: roles))
    (hk : ∀ dst a b, dst.Ordinary → Plans (k dst a b) Q) :
    Plans (do let dst ← s.reg 0; let a ← s.value 1; let b ← s.value 2; k dst a b) Q :=
  (h.reg 0 rfl).plans fun dst ⟨_, hd⟩ => (h.value 1 (.inl rfl)).plans fun a _ =>
    (h.value 2 (.inl rfl)).plans fun b _ => hk dst a b hd

/-- A destination and three sources. -/
theorem plans_three {Q : Emit Unit → Prop} {k : Register → Expr → Expr → Expr → Plan}
    {roles : List Role} (h : s.Fits (.register :: .value :: .value :: .value :: roles))
    (hk : ∀ dst a b c, dst.Ordinary → Plans (k dst a b c) Q) :
    Plans (do
      let dst ← s.reg 0; let a ← s.value 1; let b ← s.value 2; let c ← s.value 3; k dst a b c) Q :=
  plans_two h fun dst a b hd => (h.value 3 (.inl rfl)).plans fun c _ => hk dst a b c hd

/-! ## Arithmetic -/

theorem emits_wrapping (hd : dst.Ordinary) {op : BinOp} {lhs rhs : Expr} :
    Emits special Flag.overflows (fun _ => True) (wrapping dst op lhs rhs) :=
  .temp_bind fun _ => .temp_bind fun _ => .status_set hd

theorem emits_clamped (hd : dst.Ordinary) {sign : Sign} {op : BinOp} {lhs rhs : Expr} :
    Emits special Flag.overflows (fun _ => True) (clamped sign dst op lhs rhs) :=
  .temp_bind fun _ => .status_set hd

theorem isAddress_iff {r : Register} : r.isAddress = true ↔ r.shape = .address := by
  cases r <;> simp [Register.isAddress, Register.shape]

theorem sound_addSub (h : s.Fits (Role.binary s.arity)) {op : BinOp} :
    Sound special (if s.shapes[0]? = some .address then [] else Flag.overflows)
      (Plan.addSub op s) := by
  refine h.binary.plans fun ⟨dst, lhs, rhs⟩ ⟨h0, hd⟩ => .emitting ?_
  have hs : s.shapes[0]? = some dst.shape := by simp [Source.shapes, h0, Operand.shape]
  by_cases ha : dst.shape = .address
  · simp only [hs, ha, isAddress_iff.2 ha, if_true]
    exact .set hd
  · simp only [hs, ha, mt isAddress_iff.1 ha, Option.some.injEq, if_false, Bool.false_eq_true]
    exact emits_wrapping hd

theorem sound_addSubSat (h : s.Fits (Role.binary s.arity)) {op : BinOp} {sign : Sign} :
    Sound special Flag.overflows (Plan.addSubSat op sign s) :=
  h.binary.plans fun _ ⟨_, hd⟩ => .emitting (emits_clamped hd)

theorem sound_carry (h : s.Fits (Role.binary s.arity)) {subtract useCarry : Bool} :
    Sound special (.c :: Flag.overflows) (Plan.carry subtract useCarry s) :=
  h.binary.plans fun _ ⟨_, hd⟩ => .emitting <|
    .temp_bind fun _ => .temp_bind fun _ => .temp_bind fun _ =>
    .temp_bind fun _ => .temp_bind fun _ =>
    (Emits.setFlag rfl).bind fun _ _ => .status_set hd

theorem reads_reversed (h : s.Fits (if s.arity = 3 then [.register, .value, .value]
    else [.register])) : Reads (Plan.reversed s) fun x => x.1.Ordinary := by
  unfold Plan.reversed
  split at h
  · next h3 =>
    simp only [h3]
    exact (h.reg 0 rfl).bind fun _ hr => (h.value 2 (.inl rfl)).bind fun _ _ =>
      (h.value 1 (.inl rfl)).bind fun _ _ => .ok hr.2
  · simp only [show s.arity = 1 from h.arity]
    exact (h.reg 0 rfl).bind fun _ hr => (h.value 0 (.inr rfl)).bind fun _ _ => .ok hr.2

theorem sound_rsub (h : s.Fits (if s.arity = 3 then [.register, .value, .value]
    else [.register])) : Sound special Flag.overflows (Plan.rsub s) :=
  (reads_reversed h).plans fun _ hd => .emitting (emits_wrapping hd)

theorem sound_rsubSat (h : s.Fits (if s.arity = 3 then [.register, .value, .value]
    else [.register])) {sign : Sign} : Sound special Flag.overflows (Plan.rsubSat sign s) :=
  (reads_reversed h).plans fun _ hd => .emitting (emits_clamped hd)

theorem sound_addScaled (h : s.Fits [.register, .value, .value, .immediate]) :
    Sound special [] (Plan.addScaled s) :=
  plans_two h fun _ _ _ hd => (h.imm 3 rfl).plans fun _ _ => .emitting (.set hd)

theorem sound_addBitIndex (h : s.Fits [.register, .value, .value]) :
    Sound special [] (Plan.addBitIndex s) :=
  plans_two h fun _ _ _ hd => .emitting (.set hd)

theorem sound_saturate (h : s.Fits (Role.unary s.arity)) {l : Lane} {sign : Sign} :
    Sound special [] (Plan.saturate l sign s) :=
  h.unary.plans fun _ ⟨_, hd⟩ => .emitting (.temp_bind fun _ => .set hd)

theorem sound_condArith (h : s.Fits (if s.arity = 4 then [.register, .value, .value, .value]
    else [.register, .value, .value])) {subtract negate : Bool} :
    Sound special Flag.overflows (Plan.condArith subtract negate s) := by
  unfold Plan.condArith
  refine Reads.plans (Q := fun x => x.1.Ordinary) ?_ fun _ hd => .emitting <|
    .temp_bind fun _ => .temp_bind fun _ => .temp_bind fun _ =>
    .temp_bind fun _ => .status_set hd
  split at h
  · next h4 =>
    simp only [h4]
    exact (h.reg 0 rfl).bind fun _ hr => (h.value 1 (.inl rfl)).bind fun _ _ =>
      (h.value 2 (.inl rfl)).bind fun _ _ => (h.value 3 (.inl rfl)).bind fun _ _ => .ok hr.2
  · simp only [show s.arity = 3 from h.arity]
    exact (h.reg 0 rfl).bind fun _ hr => (h.value 1 (.inl rfl)).bind fun _ _ =>
      (h.value 0 (.inr rfl)).bind fun _ _ => (h.value 2 (.inl rfl)).bind fun _ _ => .ok hr.2

theorem sound_shift (h : s.Fits (Role.binary s.arity)) {kind : ShiftKind} :
    Sound special ((Action.shift kind).flags s.shapes[0]?) (Plan.shift kind s) := by
  refine h.binary.plans fun _ ⟨_, hd⟩ => .emitting <|
    .temp_bind fun _ => .temp_bind fun _ => ?_
  cases kind with
  | logical => exact .set hd
  | arithmetic =>
    exact .temp_bind fun _ => .temp_bind fun _ => .temp_bind fun _ =>
      (Emits.setFlag rfl).bind fun _ _ => .status_set hd
  | saturating =>
    exact .temp_bind fun _ => .temp_bind fun _ => .temp_bind fun _ =>
      .status_set hd

theorem sound_halfShift (h : s.Fits (Role.binary s.arity)) {right : BinOp} :
    Sound special [] (Plan.halfShift right s) :=
  h.binary.plans fun _ ⟨_, hd⟩ => .emitting <|
    .temp_bind fun _ => .temp_bind fun _ => .set hd

theorem emits_laneResult {op : LaneOp} {w : Width} {a b : Expr} :
    Emits special [] (fun r => r.status?.isSome = op.reports) (laneResult op w a b) := by
  have hexact {s : Sign} {sat : Bool} {e : Expr} :
      Emits special [] (fun r => r.status?.isSome = true) (exactLane w s sat e) :=
    .temp_bind fun _ => .pure rfl
  cases op with
  | add | addSat | sub | subSat | abs | absSat | absDiff | absDiffSat => exact hexact
  | min | max | eq | lt | shift | shiftArithmetic => exact .pure rfl

theorem emits_lanes (hd : dst.Ordinary) {op : LaneOp} {l : Lane} {a b : Expr} :
    Emits special (if op.reports then Flag.overflows else []) (fun _ => True)
      (Plan.lanes op l dst a b) := by
  refine .temp_bind fun a => .temp_bind fun b =>
    .quiet_bind (.mapM fun _ _ => emits_laneResult) fun parts ⟨hlen, hparts⟩ =>
    .temp_bind fun result => ?_
  cases hr : op.reports with
  | false =>
    have hnil : parts.filterMap (·.status?) = [] := by simp_all
    simp only [hnil]
    exact .set hd
  | true =>
    -- There is at least one lane, so there is a status to write.
    obtain ⟨first, rest, hcons⟩ : ∃ first rest, parts.filterMap (·.status?) = first :: rest := by
      cases parts with
      | nil => cases l <;> simp [Lane.count] at hlen
      | cons part parts =>
        obtain ⟨first, hf⟩ := Option.isSome_iff_exists.1 ((hparts part (by simp)).trans hr)
        exact ⟨first, _, List.filterMap_cons_some hf⟩
    simp only [hcons]
    exact .status_set hd

theorem sound_lanes (h : s.Fits (Role.binary s.arity)) {op : LaneOp} {l : Lane} :
    Sound special (if op.reports then Flag.overflows else [])
      (do let (dst, a, b) ← s.binary; emitting (Plan.lanes op l dst a b)) :=
  h.binary.plans fun _ hd => .emitting (emits_lanes hd.2)

theorem sound_packed {op : LaneOp} {l : Lane}
    (h : s.Fits ((Action.packed op l).signature s.arity)) :
    Sound special (if op.reports then Flag.overflows else []) (Plan.packed op l s) := by
  cases op with
  | shift | shiftArithmetic => exact sound_halfShift h
  | abs | absSat =>
    exact (h.reg 0 rfl).plans fun _ hd => (h.value 1 (.inl rfl)).plans fun _ _ =>
      .emitting (emits_lanes hd.2)
  | _ => exact sound_lanes h

/-! ## Comparisons, logic and moves -/

theorem sound_compare (h : s.Fits (Role.binary s.arity)) (c : Condition) (acc : Option Combine) :
    Sound special [] (Plan.compare c acc s) := by
  unfold Role.binary at h
  unfold Plan.compare
  refine Reads.plans (Q := fun x => x.1.Ordinary) ?_ fun _ hd => .emitting (.set hd)
  split at h
  · next h3 =>
    simp only [h3]
    exact (h.reg 0 rfl).bind fun _ hr => (h.value 1 (.inl rfl)).bind fun _ _ =>
      (h.value 2 (.inl rfl)).bind fun _ _ => .ok hr.2
  · simp only [show s.arity = 2 from h.arity]
    exact (h.reg 0 rfl).bind fun _ hr => (h.value 1 (.inl rfl)).bind fun _ _ => .ok hr.2

theorem sound_anyEqual (h : s.Fits (Role.binary s.arity)) {l : Lane} :
    Sound special [] (Plan.anyEqual l s) :=
  h.binary.plans fun _ ⟨_, hd⟩ => .emitting <|
    .temp_bind fun _ => .temp_bind fun _ => .set hd

theorem sound_logic (h : s.Fits (Role.binary s.arity)) {op : LogicOp} :
    Sound special [] (Plan.logic op s) :=
  h.binary.plans fun _ ⟨_, hd⟩ => .emitting (.set hd)

theorem sound_complement (h : s.Fits (Role.unary s.arity)) :
    Sound special [] (Plan.complement s) :=
  h.unary.plans fun _ ⟨_, hd⟩ => .emitting (.set hd)

theorem sound_count (h : s.Fits (Role.unary s.arity)) {kind : CountKind} {l : Lane} :
    Sound special [] (Plan.count kind l s) :=
  h.unary.plans fun _ ⟨_, hd⟩ => .emitting (.temp_bind fun _ => .set hd)

theorem sound_select (h : s.Fits [.register, .value, .value, .value]) {negate : Bool} :
    Sound special [] (Plan.select negate s) :=
  plans_three h fun _ _ _ _ hd => .emitting (.set hd)

theorem sound_condMove (h : s.Fits [.register, .value, .value]) {negate : Bool} :
    Sound special [] (Plan.condMove negate s) :=
  plans_two h fun _ _ _ hd => .emitting (.set hd)

theorem sound_move (h : s.Fits [.register, .value]) : Sound special [] (Plan.move s) :=
  (h.reg 0 rfl).plans fun _ ⟨_, hd⟩ => (h.value 1 (.inl rfl)).plans fun _ _ => .emitting (.set hd)

theorem sound_movePair (h : s.Fits [.register, .value, .value]) :
    Sound special [] (Plan.movePair s) :=
  plans_two h fun _ _ _ hd => .emitting (.set hd)

/-! ## Products and quotients -/

theorem emits_setWord (hd : dst.Ordinary) {sign : Sign} {sat : Bool} {sum : Expr} :
    Emits special Flag.overflows (fun _ => True) (setWord dst sign sat sum) :=
  .status_set hd

theorem emits_setProduct (hd : dst.Ordinary) {product : Expr} :
    Emits special Flag.overflows (fun _ => True) (setProduct dst product) :=
  .status_set hd

theorem emits_setAccumulated (hd : dst.Ordinary) {op : Accumulate} {sat : Bool}
    {acc product : Expr} :
    Emits special Flag.overflows (fun _ => True) (setAccumulated dst op sat acc product) :=
  .temp_bind fun _ => .temp_bind fun _ => .status_set hd

theorem emits_setAccumulatedU (hd : dst.Ordinary) {subtract sat : Bool} {acc product : Expr} :
    Emits special Flag.overflows (fun _ => True) (setAccumulatedU dst subtract sat acc product) :=
  .temp_bind fun _ => .temp_bind fun _ => .status_set hd

theorem sound_multiply (h : s.Fits (Role.binary s.arity)) {sign : Sign} {wide sat : Bool} :
    Sound special Flag.overflows (Plan.multiply sign wide sat s) := by
  refine h.binary.plans fun _ ⟨_, hd⟩ => .emitting (.temp_bind fun _ => ?_)
  cases wide with
  | true => exact emits_setProduct hd
  | false => exact emits_setWord hd

theorem sound_multiplyAdd (h : s.Fits [.register, .value, .value, .value])
    {subtract : Bool} {sign : Sign} {wide sat : Bool} :
    Sound special Flag.overflows (Plan.multiplyAdd subtract sign wide sat s) := by
  refine plans_three h fun _ _ _ _ hd => .emitting (.temp_bind fun _ => ?_)
  cases wide with
  | true =>
    refine .temp_bind fun _ => ?_
    cases sign with
    | signed => exact emits_setAccumulated hd
    | unsigned => exact emits_setAccumulatedU hd
  | false => exact .temp_bind fun _ => emits_setWord hd

theorem emits_setMerged (hd : dst.Ordinary) {acc : Option Expr} {hi lo : Accumulate} {sat : Bool}
    {p1 p0 : Expr} : Emits special Flag.overflows (fun _ => True)
      (setMerged dst acc hi lo sat p1 p0) := by
  refine .temp_bind fun _ => ?_
  cases acc with
  | none => exact emits_setProduct hd
  | some acc => exact emits_setAccumulated hd

theorem emits_setSeparate (hd : dst.Ordinary) {acc : Option Expr} {hi lo : Accumulate}
    {shape : ProductShape} {sat : Bool} {p1 p0 : Expr} :
    Emits special Flag.overflows (fun _ => True) (setSeparate dst acc hi lo shape sat p1 p0) :=
  .temp_bind fun _ => .temp_bind fun _ => .status_set hd

/-- The operands of a fraction multiply: with an accumulator there is one more source. -/
theorem plans_fractions {Q : Emit Unit → Prop} {acc : Accumulate}
    {k : Register → Option Expr → Expr → Expr → Nat → Plan}
    (h : s.Fits (if acc = .none then [.register, .value, .value, .immediate]
      else [.register, .value, .value, .value, .immediate]))
    (hk : ∀ dst acc? a b n, dst.Ordinary → Plans (k dst acc? a b n) Q) :
    Plans (do
      let dst ← s.reg 0
      let acc? ← (if acc = .none then pure none else some <$> s.value 1 : Read (Option Expr))
      let first := if acc = .none then 1 else 2
      let a ← s.value first
      let b ← s.value (first + 1)
      let n ← s.count (first + 2)
      k dst acc? a b n) Q := by
  by_cases ha : acc = .none
  · simp only [ha, if_true] at h ⊢
    have hacc : Reads (pure none : Read (Option Expr)) fun _ => True := .ok trivial
    exact (h.reg 0 rfl).plans fun dst ⟨_, hd⟩ => hacc.plans fun acc? _ =>
      (h.value 1 (.inl rfl)).plans fun a _ => (h.value 2 (.inl rfl)).plans fun b _ =>
      (h.count 3 rfl).plans fun n _ => hk dst acc? a b n hd
  · simp only [ha, if_false] at h ⊢
    have hacc : Reads (some <$> s.value 1) fun _ => True := by
      obtain ⟨e, he, -⟩ := h.value 1 (.inl rfl)
      rw [he]
      exact .ok trivial
    exact (h.reg 0 rfl).plans fun dst ⟨_, hd⟩ => hacc.plans fun acc? _ =>
      (h.value 2 (.inl rfl)).plans fun a _ => (h.value 3 (.inl rfl)).plans fun b _ =>
      (h.count 4 rfl).plans fun n _ => hk dst acc? a b n hd

theorem sound_halfMultiply {halves : HalfPair} {hi lo : Accumulate} {shape : ProductShape}
    {sat : Bool} (h : s.Fits (if hi = .none then [.register, .value, .value, .immediate]
      else [.register, .value, .value, .value, .immediate])) :
    Sound special Flag.overflows (Plan.halfMultiply halves hi lo shape sat s) := by
  refine plans_fractions h fun dst acc? a b n hd => .emitting ?_
  refine .quiet_bind (Q := fun _ => True) ?_ fun acc? _ => .temp_bind fun _ =>
    .temp_bind fun _ => .temp_bind fun _ => .temp_bind fun _ => ?_
  · cases acc? with
    | none => exact .pure trivial
    | some acc => exact .temp_bind fun _ => .pure trivial
  · cases shape with
    | merged => exact emits_setMerged hd
    | pair | rounded | roundedWide => exact emits_setSeparate hd

theorem sound_fractionMultiply {src : FractionSource} {wide : Bool} {acc : Accumulate}
    {round sat : Bool} (h : s.Fits (if acc = .none then [.register, .value, .value, .immediate]
      else [.register, .value, .value, .value, .immediate])) :
    Sound special Flag.overflows (Plan.fractionMultiply src wide acc round sat s) := by
  refine plans_fractions h fun dst acc? a b n hd => .emitting ?_
  refine .temp_bind fun _ => .temp_bind fun _ =>
    .temp_bind fun _ => ?_
  cases wide with
  | true =>
    cases acc? with
    | none => exact emits_setProduct hd
    | some value => exact .temp_bind fun _ => emits_setAccumulated hd
  | false => exact .temp_bind fun _ => .status_set hd

theorem sound_divide (h : s.Fits [.register, .value, .value]) {sign : Sign} :
    Sound special [.v, .sv, .av] (Plan.divide sign s) :=
  plans_two h fun _ _ _ hd => .emitting <|
    .temp_bind fun _ => .temp_bind fun _ => .temp_bind fun _ =>
    .bind_quiet .overflowStatus fun _ _ => .set hd

theorem sound_divideInit (h : s.Fits [.register, .value, .value]) {l : Lane} {sign : Sign} :
    Sound special [.v, .sv, .av] (Plan.divideInit l sign s) :=
  plans_two h fun _ _ _ hd => .emitting <|
    .temp_bind fun _ => .temp_bind fun _ =>
    .bind_quiet .overflowStatus fun _ _ => .set hd

/-! ## Bit fields -/

theorem reads_range {roles : List Role} {split : Bool}
    (h : s.Fits (roles ++ Role.range split)) : Reads (s.field roles.length) fun _ => True := by
  refine h.field _ ?_
  cases split with
  | true => exact .inr (by simp [Role.range])
  | false => exact .inl (by simp [Role.range])

theorem sound_extract {split : Bool} (h : s.Fits ([.register, .value] ++ Role.range split))
    {sign : Sign} : Sound special [] (Plan.extract sign s) := by
  refine (h.reg 0 rfl).plans fun _ ⟨_, hd⟩ => (h.value 1 (.inl rfl)).plans fun _ _ =>
    (reads_range h).plans fun ⟨pos, width⟩ _ => ?_
  cases pos with
  | static =>
    cases width with
    | static => exact .emitting (.set hd)
    | dynamic => exact .emitting (.temp_bind fun _ => .set hd)
  | dynamic => exact .emitting (.temp_bind fun _ => .set hd)

theorem sound_insert {split : Bool}
    (h : s.Fits ([.register, .value, .value] ++ Role.range split)) :
    Sound special [] (Plan.insert s) :=
  plans_two h fun _ _ _ hd => (reads_range h).plans fun _ _ =>
    .emitting (.temp_bind fun _ => .set hd)

theorem sound_insertMask {split : Bool} (h : s.Fits ([.register, .value] ++ Role.range split)) :
    Sound special [] (Plan.insertMask s) :=
  (h.reg 0 rfl).plans fun _ ⟨_, hd⟩ => (h.value 1 (.inl rfl)).plans fun _ _ =>
    (reads_range h).plans fun _ _ => .emitting (.set hd)

theorem sound_extractDouble (h : s.Fits [.register, .value, .value, .amount]) :
    Sound special [] (Plan.extractDouble s) :=
  plans_two h fun _ _ _ hd => (h.amount 3 rfl).plans fun _ _ => .emitting (.set hd)

theorem sound_bitLogic (h : s.Fits [.register, .value, .immediate, .value, .immediate])
    {op : LogicOp} {acc : Option Combine} : Sound special [] (Plan.bitLogic op acc s) :=
  (h.reg 0 rfl).plans fun _ ⟨_, hd⟩ => (h.bit 1 rfl rfl).plans fun _ _ =>
    (h.bit 3 rfl rfl).plans fun _ _ => .emitting (.set hd)

theorem sound_insertBit (h : s.Fits [.register, .value, .immediate, .value, .immediate])
    {negate : Bool} : Sound special [] (Plan.insertBit negate s) :=
  (h.reg 0 rfl).plans fun _ ⟨_, hd⟩ => (h.value 1 (.inl rfl)).plans fun _ _ =>
    (h.count 2 rfl).plans fun _ _ => (h.bit 3 rfl rfl).plans fun _ _ => .emitting (.set hd)

/-! ## Memory -/

theorem ordinary_pairParts {r : Register} (h : r.Ordinary) : (pairParts r).2.Ordinary := by
  cases r <;> simp_all [pairParts, Register.halves?, Register.Ordinary, Register.shape]

/-- An addressing mode only emits temporaries; its updates can be emitted later. -/
theorem emits_access {place : Place} (h : ∀ r ∈ place.register?, r.Ordinary) :
    Emits special [] (fun a => Emits special [] (fun _ => True) (emitAll a.updates))
      (access place) := by
  have hnone : Emits special [] (fun _ => True) (emitAll []) := .pure trivial
  cases place with
  | absolute | based => exact .pure hnone
  | postIncrement base | preIncrement base =>
    exact .temp_bind fun _ => .pure (.set (h base rfl))
  | bitReverse pair =>
    have hp := ordinary_pairParts (h pair rfl)
    exact .temp_bind fun _ =>
      .pure (.intrinsic (List.nil_subset _) fun _ hr => List.mem_singleton.1 hr ▸ hp.within _)
  | circular pair =>
    exact .temp_bind fun _ => .temp_bind fun _ => .temp_bind fun _ =>
      .temp_bind fun _ => .temp_bind fun _ =>
      .pure (.set (ordinary_pairParts (h pair rfl)))

theorem sound_loadAddress (h : s.Fits [.register, .place]) :
    Sound special [] (Plan.loadAddress s) :=
  (h.reg 0 rfl).plans fun _ ⟨_, hd⟩ => (h.place 1 rfl).plans fun _ hp =>
    .emitting (.quiet_bind (emits_access hp) fun _ _ => .set hd)

theorem sound_load (h : s.Fits [.register, .place]) {kind : Access} :
    Sound special [] (Plan.load kind s) :=
  (h.reg 0 rfl).plans fun _ ⟨_, hd⟩ => (h.place 1 rfl).plans fun _ hp =>
    .emitting (.quiet_bind (emits_access hp) fun _ hu => .quiet_bind (.set hd) fun _ _ => hu)

theorem sound_store (h : s.Fits [.place, .value]) {kind : Access} :
    Sound special [] (Plan.store kind s) :=
  (h.place 0 rfl).plans fun _ hp => (h.value 1 (.inl rfl)).plans fun _ _ =>
    .emitting (.quiet_bind (emits_access hp) fun _ hu => .quiet_bind .store fun _ _ => hu)

theorem sound_storeBit (h : s.Fits [.place, .immediate, .immediate]) :
    Sound special [] (Plan.storeBit s) :=
  (h.place 0 rfl).plans fun _ hp => (h.count 1 rfl).plans fun _ _ => (h.imm 2 rfl).plans fun _ _ =>
    .emitting (.quiet_bind (emits_access hp) fun _ hu => .quiet_bind .store fun _ _ => hu)

theorem sound_loadModifyStore (h : s.Fits [.place, .pair]) :
    Sound special [] (Plan.loadModifyStore s) :=
  (h.place 0 rfl).plans fun _ hp => (h.pair 1 rfl).plans fun _ _ =>
    .emitting (.quiet_bind (emits_access hp) fun _ hu => .temp_bind fun _ =>
      .quiet_bind .store fun _ _ => hu)

theorem sound_swap (h : s.Fits [.place, .register]) : Sound special [] (Plan.swap s) :=
  (h.place 0 rfl).plans fun _ hp => (h.reg 1 rfl).plans fun _ ⟨_, hd⟩ =>
    .emitting (.quiet_bind (emits_access hp) fun _ hu => .temp_bind fun _ =>
      .temp_bind fun _ => .quiet_bind .store fun _ _ =>
      .quiet_bind (.set hd) fun _ _ => hu)

theorem sound_compareSwap (h : s.Fits [.place, .pair]) : Sound special [] (Plan.compareSwap s) :=
  (h.place 0 rfl).plans fun _ hp => (h.pair 1 rfl).plans fun _ ⟨hd, _⟩ =>
    .emitting (.quiet_bind (emits_access hp) fun _ hu => .temp_bind fun _ =>
      .temp_bind fun _ => .quiet_bind .newLabel fun _ _ =>
      .quiet_bind .newLabel fun _ _ => .quiet_bind (.emit trivial rfl) fun _ _ =>
      .quiet_bind .mark fun _ _ => .quiet_bind .store fun _ _ => .quiet_bind .mark fun _ _ =>
      .quiet_bind (.set hd) fun _ _ => hu)

theorem sound_swapMasked (h : s.Fits [.place, .pair]) : Sound special [] (Plan.swapMasked s) :=
  (h.place 0 rfl).plans fun _ hp => (h.pair 1 rfl).plans fun _ ⟨hd, _⟩ =>
    .emitting (.quiet_bind (emits_access hp) fun _ hu => .temp_bind fun _ =>
      .temp_bind fun _ => .quiet_bind .store fun _ _ =>
      .quiet_bind (.set hd) fun _ _ => hu)

theorem sound_addressed (h : s.Fits [.place]) {i : Intrinsic} {outputs : List Register}
    (hi : i.implied ⊆ outputs) (ho : ∀ r ∈ outputs, r.Within special) :
    Sound special [] (Plan.addressed i outputs s) :=
  (h.place 0 rfl).plans fun _ hp =>
    .emitting (.quiet_bind (emits_access hp) fun _ hu => .quiet_bind (.intrinsic hi ho) fun _ _ => hu)

/-- The registers of a context are for general purpose, or stored on their own. -/
theorem within_of_layout {r : Register} (h : r ∈ upperRegisters ∨ r ∈ lowerRegisters)
    (hs : r.isSpecial = true → r ∈ special) : r.Within special := by
  have hcells : ∀ r ∈ upperRegisters ++ lowerRegisters, r.cells = [r] := by decide
  intro x hx
  rw [hcells r (List.mem_append.2 h), List.mem_singleton] at hx
  rwa [hx]

theorem upper_special {r : Register} (h : r ∈ upperRegisters) (hs : r.isSpecial = true) :
    r ∈ [Register.pcxi, .psw] := by
  have hall : ∀ r ∈ upperRegisters, r.isSpecial = true → r ∈ [Register.pcxi, .psw] := by decide
  exact hall r h hs

theorem lower_special {r : Register} (h : r ∈ lowerRegisters) (hs : r.isSpecial = true) :
    r ∈ [Register.pcxi] := by
  have hall : ∀ r ∈ lowerRegisters, r.isSpecial = true → r ∈ [Register.pcxi] := by decide
  exact hall r h hs

theorem sound_context (h : s.Fits [.place]) {i : Intrinsic}
    (hi : (Action.context i).declares = true) :
    Sound ((Action.context i).special s.operands) [] (Plan.context i s) := by
  refine sound_addressed h (of_decide_eq_true hi) fun r hr => ?_
  cases i with
  | loadLowerContext => exact within_of_layout (.inr hr) (lower_special hr)
  | loadUpperContext => exact within_of_layout (.inl hr) (upper_special hr)
  | _ => cases hr

theorem implied_subset {i : Intrinsic} (h : i.implied.isEmpty = true) (outputs : List Register) :
    i.implied ⊆ outputs := by
  rw [List.isEmpty_iff.1 h]
  exact List.nil_subset _

theorem sound_cache (h : s.Fits [.place]) {i : Intrinsic}
    (hi : (Action.cache i).declares = true) : Sound special [] (Plan.cache i s) :=
  sound_addressed h (implied_subset hi []) (by simp)

/-! ## Jumps, calls and returns -/

/-- A label of the host's, or a new one. -/
theorem emits_labelOrNew (l? : Option Label) : Emits special [] (fun _ => True)
    (match l? with | some l => pure l | none => newLabel) := by
  cases l? with
  | none => exact .newLabel
  | some l => exact .pure trivial

theorem emits_branchTo (hpc : .pc ∈ special) {cond : Expr} {target next : Address} :
    Emits special [] (fun _ => True) (branchTo cond target next) := by
  refine .quiet_bind .labelAt? fun taken? _ => .quiet_bind .labelAt? fun fall? _ =>
    .quiet_bind (emits_labelOrNew taken?) fun taken _ =>
    .quiet_bind (emits_labelOrNew fall?) fun fall _ =>
    .quiet_bind (.emit trivial rfl) fun _ _ => ?_
  cases taken? <;> cases fall?
  · exact .quiet_bind .mark fun _ _ => .quiet_bind (.emit hpc rfl) fun _ _ => .mark
  · exact .quiet_bind .mark fun _ _ => .quiet_bind (.emit hpc rfl) fun _ _ => .pure trivial
  · exact .mark
  · exact .pure trivial

theorem sound_jump (hpc : .pc ∈ special) (h : s.Fits [.target]) :
    Sound special [] (Plan.jump s) := by
  refine (h.target 0 rfl).plans fun _ _ => .emitting (.quiet_bind .labelAt? fun label? _ => ?_)
  cases label? with
  | none => exact .emit hpc rfl
  | some label => exact .emit trivial rfl

theorem sound_jumpIndirect (hpc : .pc ∈ special) (h : s.Fits [.register]) :
    Sound special [] (Plan.jumpIndirect s) :=
  (h.reg 0 rfl).plans fun _ _ => .emitting (.temp_bind fun _ => .emit hpc rfl)

theorem emits_linkOnly {next : Address} :
    Emits special [] (fun _ => True) (Plan.linkOnly next) := .set nofun

theorem emits_pushLink {next : Address} : Emits special [] (fun _ => True) (pushLink next) :=
  .quiet_bind (.set nofun) fun _ _ => .quiet_bind .store fun _ _ => .set nofun

theorem emits_saveAndLink (hpcxi : .pcxi ∈ special) {next : Address} :
    Emits special [] (fun _ => True) (saveAndLink next) :=
  .quiet_bind (.intrinsic (List.Subset.refl _) fun _ hr =>
    List.mem_singleton.1 hr ▸ .of_mem rfl hpcxi) fun _ _ => .set nofun

theorem sound_callDirect (hpc : .pc ∈ special) (h : s.Fits [.target])
    {link : Address → Emit Unit} (hl : ∀ next, Emits special [] (fun _ => True) (link next)) :
    Sound special [] (Plan.callDirect link s) :=
  (h.target 0 rfl).plans fun _ _ => .emitting (.quiet_bind (hl _) fun _ _ => .emit hpc rfl)

theorem sound_callThrough (hpc : .pc ∈ special) (h : s.Fits [.register])
    {link : Address → Emit Unit} (hl : ∀ next, Emits special [] (fun _ => True) (link next)) :
    Sound special [] (Plan.callThrough link s) :=
  (h.reg 0 rfl).plans fun _ _ =>
    .emitting (.temp_bind fun _ => .quiet_bind (hl _) fun _ _ => .emit hpc rfl)

theorem sound_ret : Sound [.pc, .pcxi, .psw] [] Plan.ret :=
  .emitting (.temp_bind fun _ =>
    .quiet_bind (.intrinsic (by decide) fun _ hr =>
      within_of_layout (.inl hr) fun hs => .tail _ (upper_special hr hs)) fun _ _ =>
    .emit List.mem_cons_self rfl)

theorem sound_fastRet (hpc : .pc ∈ special) : Sound special [] Plan.fastRet :=
  .emitting (.temp_bind fun _ => .quiet_bind (.set nofun) fun _ _ =>
    .quiet_bind (.set nofun) fun _ _ => .emit hpc rfl)

theorem sound_retMonitor : Sound [.pc, .pcxi, .psw] [] Plan.retMonitor := by
  refine .emitting (.temp_bind fun _ =>
    .quiet_bind (.intrinsic (List.nil_subset _) fun r hr => ?_) fun _ _ => .emit List.mem_cons_self rfl)
  simp only [List.mem_cons, List.not_mem_nil, or_false] at hr
  rcases hr with rfl | rfl | rfl | rfl
  · exact .of_mem rfl (by simp)
  · exact .of_mem rfl (by simp)
  · exact (show Register.stackPointer.Ordinary from nofun).within _
  · exact (show Register.link.Ordinary from nofun).within _

theorem sound_branch (h : s.Fits (if s.arity = 3 then [.value, .value, .target]
    else [.value, .target])) {c : Condition} : Sound [.pc] [] (Plan.branch c s) := by
  unfold Plan.branch
  split at h
  · next h3 =>
    simp only [h3, if_true]
    exact (h.value 0 (.inl rfl)).plans fun _ _ => (h.value 1 (.inl rfl)).plans fun _ _ =>
      (h.target 2 rfl).plans fun _ _ => .emitting (emits_branchTo (by simp))
  · simp only [show s.arity = 2 from h.arity, Nat.reduceEqDiff, if_false]
    exact (h.value 0 (.inl rfl)).plans fun _ _ => (h.target 1 rfl).plans fun _ _ =>
      .emitting (emits_branchTo (by simp))

theorem sound_branchBit (h : s.Fits [.value, .immediate, .target]) {wanted : Bool} :
    Sound [.pc] [] (Plan.branchBit wanted s) :=
  (h.value 0 (.inl rfl)).plans fun _ _ => (h.count 1 rfl).plans fun _ _ =>
    (h.target 2 rfl).plans fun _ _ => .emitting (emits_branchTo (by simp))

theorem sound_branchStep (h : s.Fits [.register, .value, .target]) {step : Word} :
    Sound [.pc] [] (Plan.branchStep step s) :=
  (h.reg 0 rfl).plans fun _ ⟨_, hd⟩ => (h.value 1 (.inl rfl)).plans fun _ _ =>
    (h.target 2 rfl).plans fun _ _ => .emitting (.temp_bind fun _ =>
      .quiet_bind (.set hd) fun _ _ => emits_branchTo (by simp))

theorem sound_loop (h : s.Fits [.register, .target]) : Sound [.pc] [] (Plan.loop s) :=
  (h.reg 0 rfl).plans fun _ ⟨_, hd⟩ => (h.target 1 rfl).plans fun _ _ =>
    .emitting (.temp_bind fun _ => .quiet_bind (.set hd) fun _ _ => emits_branchTo (by simp))

/-! ## Platform operations -/

theorem reads_values {n : Nat} (h : s.Fits (List.replicate n .value)) :
    Reads (s.values 0) fun _ => True :=
  h.values 0 fun j _ hj => by simp_all

theorem sound_platform {i : Intrinsic} (h : s.Fits ((Action.platform i).signature s.arity))
    (hi : (Action.platform i).declares = true) :
    Sound ((Action.platform i).special s.operands) [] (Plan.platform i s) := by
  cases i with
  | disableInterruptsSaving =>
    exact (h.reg 0 rfl).plans fun _ ⟨_, hd⟩ =>
      .emitting (.intrinsic (List.nil_subset _) fun _ hr => List.mem_singleton.1 hr ▸ hd.within _)
  | saveLowerContext | bisr =>
    exact (reads_values h).plans fun _ _ =>
      .emitting (.intrinsic (List.Subset.refl _) fun _ hr =>
        List.mem_singleton.1 hr ▸ .of_mem rfl List.mem_cons_self)
  | restoreLowerContext =>
    exact .emitting (Emits.intrinsic (by decide) fun _ hr =>
      within_of_layout (.inr hr) (lower_special hr))
  | saveUpperContext | restoreUpperContext | loadUpperContext | loadLowerContext => cases hi
  | _ => exact (reads_values h).plans fun _ _ => .emitting (.intrinsic (List.nil_subset _) (by simp))

theorem sound_nop : Sound special [] (emitting (emit .nop)) := .emitting (.emit trivial rfl)

theorem sound_trapOn {f : Flag} : Sound special [] (Plan.trapOn f) :=
  .emitting (.quiet_bind .newLabel fun _ _ => .quiet_bind .newLabel fun _ _ =>
    .quiet_bind (.emit trivial rfl) fun _ _ => .quiet_bind .mark fun _ _ =>
    .quiet_bind (.intrinsic (List.nil_subset _) (by simp)) fun _ _ => .mark)

theorem sound_readCsfr (h : s.Fits [.register, .csfr]) : Sound special [] (Plan.readCsfr s) :=
  (h.reg 0 rfl).plans fun _ ⟨_, hd⟩ => (h.csfr 1 rfl).plans fun _ _ =>
    .emitting (.intrinsic (List.nil_subset _) fun _ hr => List.mem_singleton.1 hr ▸ hd.within _)

/-- What an offset views is one special register, or for general purpose. -/
theorem within_canonical {offset : BitVec 16}
    (h : Register.canonical (.csfr offset) ∈ special) :
    (Register.canonical (.csfr offset)).Within special := by
  intro x hx hs
  unfold Register.cells at hx
  rw [Register.canonical_canonical] at hx
  generalize Register.canonical (.csfr offset) = r at h hx
  cases r with
  | d | a | e | p =>
    simp only [List.mem_cons, List.not_mem_nil, or_false] at hx
    rcases hx with rfl | rfl <;> cases hs
  | _ => rwa [List.mem_singleton.1 hx]

theorem sound_writeCsfr (h : s.Fits [.csfr, .register]) :
    Sound (Action.writeCsfr.special s.operands) [] (Plan.writeCsfr s) := by
  refine (h.csfr 0 rfl).plans fun offset ho => (h.value 1 (.inr rfl)).plans fun _ _ =>
    .emitting (.intrinsic (List.nil_subset _) fun r hr => ?_)
  rw [List.mem_singleton.1 hr]
  exact within_canonical (List.mem_filterMap.2 ⟨_, List.mem_of_getElem? ho, rfl⟩)

theorem sound_dataIntrinsic {n : Nat} (h : s.Fits (.register :: List.replicate n .value))
    {i : Intrinsic} (hi : (Action.dataIntrinsic i).declares = true) :
    Sound special [] (Plan.dataIntrinsic i s) := by
  have values : Reads (s.values 1) fun _ => True := by
    refine h.values 1 fun j hj hn => ?_
    obtain ⟨j, rfl⟩ : ∃ k, j = k + 1 := ⟨j - 1, by omega⟩
    simp_all
  exact (h.reg 0 rfl).plans fun _ ⟨_, hd⟩ => values.plans fun _ _ =>
    .emitting (.intrinsic (implied_subset hi _) fun _ hr => List.mem_singleton.1 hr ▸ hd.within _)

/-! ## Floating point -/

theorem filterMap_setFlag {fs : List Flag} {v : Flag → Expr} :
    (fs.map fun f => Stmt.setFlag f (v f)).filterMap Stmt.flag? = fs := by
  rw [List.filterMap_map]
  exact List.filterMap_some

theorem emits_setFlags {fs : List Flag} {v : Flag → Expr} (h : ∀ f ∈ fs, f.source? = none) :
    Emits special fs (fun _ => True) (emitAll (fs.map fun f => .setFlag f (v f))) := by
  have htame : ∀ stmt ∈ fs.map fun f => Stmt.setFlag f (v f), stmt.Tame special := by
    intro stmt hs
    obtain ⟨f, hf, rfl⟩ := List.mem_map.1 hs
    intro source hsource
    rw [h f hf] at hsource
    cases hsource
  simpa only [filterMap_setFlag] using Emits.emitAll htame

theorem emits_floatFlags {fs : List Flag} {op : FloatCheck} {args : List Expr}
    (h : ∀ f ∈ fs, f.source? = none) :
    Emits special (fs ++ [.fs]) (fun _ => True) (floatFlags fs op args) :=
  (emits_setFlags h).bind fun _ _ => .setFlag rfl

theorem sound_float (h : s.Fits [.register, .value, .value]) {op : FloatOp} :
    Sound special (op.raised ++ [.fs]) (Plan.float op s) := by
  refine plans_two h fun _ _ _ hd => ?_
  cases op with
  | add | sub | mul | div =>
    exact .emitting (.temp_bind fun _ => .temp_bind fun _ =>
      .bind_quiet (emits_floatFlags (by decide)) fun _ _ => .set hd)

theorem sound_floatMultiplyAdd (h : s.Fits [.register, .value, .value, .value])
    {subtract : Bool} :
    Sound special (FloatOp.raised .add ++ [.fs]) (Plan.floatMultiplyAdd subtract s) :=
  plans_three h fun _ _ _ _ hd => .emitting <|
    .temp_bind fun _ => .temp_bind fun _ => .temp_bind fun _ =>
    .bind_quiet (emits_floatFlags (by decide)) fun _ _ => .set hd

theorem sound_floatCompare (h : s.Fits [.register, .value, .value]) :
    Sound special ([.fi] ++ [.fs]) (Plan.floatCompare s) :=
  plans_two h fun _ _ _ hd => .emitting <|
    .temp_bind fun _ => .temp_bind fun _ =>
    .bind_quiet (emits_floatFlags (by decide)) fun _ _ => .set hd

theorem flags_conversion {c : FloatConversion} {a n : Expr} :
    (conversion c a n).flags = c.raised := by
  cases c <;> rfl

theorem sound_floatConvert (h : s.Fits (if s.arity = 3 then [.register, .value, .value]
    else [.register, .value])) {c : FloatConversion} :
    Sound special (c.raised ++ [.fs]) (Plan.floatConvert c s) := by
  have emits {dst : Register} (hd : dst.Ordinary) {a n : Expr} :
      Emits special (c.raised ++ [.fs]) (fun _ => True) (do
        floatFlags (conversion c a n).flags (conversion c a n).check [(conversion c a n).arg]
        set dst (conversion c a n).value) := by
    rw [flags_conversion]
    exact .bind_quiet (emits_floatFlags (by cases c <;> decide)) fun _ _ => .set hd
  unfold Plan.floatConvert
  split at h
  · next h3 =>
    simp only [h3, if_true]
    obtain ⟨e, he, -⟩ := h.value 2 (.inl rfl)
    have hn : Reads (some <$> s.value 2) fun n? => n? = some e := by rw [he]; exact .ok rfl
    refine (h.reg 0 rfl).plans fun _ ⟨_, hd⟩ => (h.value 1 (.inl rfl)).plans fun _ _ =>
      hn.plans fun n? hn? => .emitting ?_
    rw [hn?]
    exact .temp_bind fun _ => .temp_bind fun _ => emits hd
  · next h3 =>
    simp only [h3, if_false]
    have hn : Reads (pure none : Read (Option Expr)) fun n? => n? = none := .ok rfl
    refine (h.reg 0 rfl).plans fun _ ⟨_, hd⟩ => (h.value 1 (.inl rfl)).plans fun _ _ =>
      hn.plans fun n? hn? => .emitting ?_
    rw [hn?]
    exact .temp_bind fun _ => emits hd

theorem sound_updateFlags (h : s.Fits [.value]) : Sound special Flag.floating (Plan.updateFlags s) :=
  (h.value 0 (.inl rfl)).plans fun _ _ => .emitting (.temp_bind fun _ => emits_setFlags (by decide))

/-! ## All actions -/

/-- A plan whose operands fit is made; its statements are tame and write the listed flags. -/
theorem plan_sound {a : Action} (h : s.Fits (a.signature s.arity)) (ha : a.declares = true) :
    Sound (a.special s.operands) (a.flags s.shapes[0]?) (plan s a) := by
  cases a with
  | add | sub => exact sound_addSub h
  | addSat | subSat => exact sound_addSubSat h
  | addCarry | addExtended | subCarry | subExtended => exact sound_carry h
  | rsub => exact sound_rsub h
  | rsubSat => exact sound_rsubSat h
  | addScaled => exact sound_addScaled h
  | addBitIndex => exact sound_addBitIndex h
  | packed => exact sound_packed h
  | saturate => exact sound_saturate h
  | compare c => exact sound_compare h c none
  | compareInto c acc => exact sound_compare h c (some acc)
  | anyEqual => exact sound_anyEqual h
  | logic => exact sound_logic h
  | complement => exact sound_complement h
  | shift => exact sound_shift h
  | count => exact sound_count h
  | condArith => exact sound_condArith h
  | select => exact sound_select h
  | condMove => exact sound_condMove h
  | move => exact sound_move h
  | movePair => exact sound_movePair h
  | loadAddress => exact sound_loadAddress h
  | multiply => exact sound_multiply h
  | multiplyAdd => exact sound_multiplyAdd h
  | halfMultiply halves hi lo shape sat => cases hi <;> exact sound_halfMultiply h
  | fractionMultiply src wide acc round sat => cases acc <;> exact sound_fractionMultiply h
  | divide => exact sound_divide h
  | divideInit => exact sound_divideInit h
  | extract => exact sound_extract h
  | insert => exact sound_insert h
  | insertMask => exact sound_insertMask h
  | extractDouble => exact sound_extractDouble h
  | bitLogic => exact sound_bitLogic h
  | insertBit => exact sound_insertBit h
  | load => exact sound_load h
  | store => exact sound_store h
  | storeBit => exact sound_storeBit h
  | loadModifyStore => exact sound_loadModifyStore h
  | swap => exact sound_swap h
  | compareSwap => exact sound_compareSwap h
  | swapMasked => exact sound_swapMasked h
  | context => exact sound_context h ha
  | cache => exact sound_cache h ha
  | jump | loopForever => exact sound_jump (.head _) h
  | jumpIndirect => exact sound_jumpIndirect (.head _) h
  | jumpLink => exact sound_callDirect (.head _) h fun _ => emits_linkOnly
  | jumpLinkIndirect => exact sound_callThrough (.head _) h fun _ => emits_linkOnly
  | call => exact sound_callDirect (.head _) h fun _ => emits_saveAndLink (.tail _ (.head _))
  | callIndirect => exact sound_callThrough (.head _) h fun _ => emits_saveAndLink (.tail _ (.head _))
  | fastCall => exact sound_callDirect (.head _) h fun _ => emits_pushLink
  | fastCallIndirect => exact sound_callThrough (.head _) h fun _ => emits_pushLink
  | ret | retException => exact sound_ret
  | fastRet => exact sound_fastRet (.head _)
  | retMonitor => exact sound_retMonitor
  | branch => exact sound_branch h
  | branchBit => exact sound_branchBit h
  | branchStep => exact sound_branchStep h
  | loop => exact sound_loop h
  | platform => exact sound_platform h ha
  | nop => exact sound_nop
  | trapOn => exact sound_trapOn
  | readCsfr => exact sound_readCsfr h
  | writeCsfr => exact sound_writeCsfr h
  | dataIntrinsic => exact sound_dataIntrinsic h ha
  | float => exact sound_float h
  | floatMultiplyAdd => exact sound_floatMultiplyAdd h
  | floatCompare => exact sound_floatCompare h
  | floatConvert => exact sound_floatConvert h
  | updateFlags => exact sound_updateFlags h

end Lift

/-! ## Decoded instructions -/

namespace FlagSet

theorem contains_foldl_insert {fs : List Flag} {s : FlagSet} {f : Flag}
    (h : f ∈ fs ∨ s.contains f = true) : (fs.foldl insert s).contains f = true := by
  induction fs generalizing s with
  | nil => simpa using h
  | cons g fs ih =>
    refine ih ?_
    rcases h with h | h
    · rcases List.mem_cons.1 h with rfl | h
      · exact .inr (by cases f <;> simp [contains, insert, Flag.place])
      · exact .inl h
    · exact .inr (by simp_all [contains, insert])

theorem contains_ofList {fs : List Flag} {f : Flag} (h : f ∈ fs) : (ofList fs).contains f = true :=
  contains_foldl_insert (.inl h)

end FlagSet

namespace Instruction

variable {isa : Isa} {bytes : List Byte} {addr : Address} {i : Instruction}

/-- The special registers that an instruction may write. -/
def special (i : Instruction) : List Register := i.row.action.special i.operands

/-- Selectors name no register. -/
theorem special_of (i : Instruction) :
    i.row.action.special (Lift.Source.of i).operands = i.special := by
  unfold special Lift.Source.of
  cases i.row.action with
  | writeCsfr =>
    simp only [Action.special, List.filterMap_filter]
    congr 1
    funext o
    cases o <;> rfl
  | _ => rfl

/-- A decoded instruction has a plan that can be made. Its effects are tame, and write the flags that
its row declares. -/
theorem plan_of_decode (h : decode isa bytes addr = .ok i) :
    Lift.Sound i.special (i.row.action.flags i.row.shapes[0]?) i.plan := by
  obtain ⟨e, -, -, -, g, hg, hr, -⟩ := of_decode h
  obtain ⟨hfits, hshapes⟩ := fits h
  rw [← hshapes, ← special_of]
  exact Lift.plan_sound hfits (Opcode.actions_declare g hg _ hr)

/-- A plan that can be made appends what it emits. -/
theorem lift_of_plan {e : Lift.Emit Unit} (hp : i.plan = Lift.emitting e) (t : Trace) :
    i.lift t = .ok { t with stmts := t.stmts ++ (e (.of t)).2.1,
                            nextLabel := (e (.of t)).2.2.labels } := by
  simp only [lift, liftInto, hp]
  rfl

/-- Lifting a decoded instruction appends its effects. -/
theorem lift_of_decode (h : decode isa bytes addr = .ok i) (t : Trace) :
    ∃ stmts next, i.lift t = .ok { t with stmts := t.stmts ++ stmts, nextLabel := next } ∧
      (∀ stmt ∈ stmts, stmt.Tame i.special) ∧ flagsWritten stmts = i.row.flags := by
  obtain ⟨enc, -, -, -, g, hg, hr, -⟩ := of_decode h
  obtain ⟨e, hp, hemits⟩ := plan_of_decode h
  refine ⟨_, _, lift_of_plan hp t, hemits.tame _, ?_⟩
  rw [flagsWritten_eq, hemits.flags, Opcode.flags_listed g hg _ hr]

end Instruction

/-- A step runs the statements of the instruction it decodes. -/
theorem Machine.step_of_decode {β : Type} [Bus β] {isa : Isa} {m : Machine β} {bytes : List Byte}
    {i : Instruction} (hf : fetch m.bus m.core.pc = .ok bytes)
    (hd : Instruction.decode isa bytes m.core.pc = .ok i) :
    ∃ t, i.lift .empty = .ok t ∧
      m.step isa = (m.start i).run i.addr t.stmts t.stmts.length t.stmts ∧
      (∀ stmt ∈ t.stmts, stmt.Tame i.special) ∧ flagsWritten t.stmts = i.row.flags := by
  obtain ⟨stmts, next, hl, heffects⟩ := Instruction.lift_of_decode hd .empty
  exact ⟨_, hl, step_eq hf hd hl, heffects⟩

end Tricore
