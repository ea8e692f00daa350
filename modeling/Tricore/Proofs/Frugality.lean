import Mathlib
import Tricore.Proofs.Resources
import Tricore.Proofs.Widths

/-!
# Frugality

From operands whose registers are present, every plan takes at most eight temporaries and two labels
and uses present registers, whether its operands can be read or not (`Lift.plan_frugal`). There is one
lemma for each family of actions. The registers of a decoded instruction are present
(`Instruction.present`).
-/

namespace Tricore

namespace Lift

variable {α : Type} {n l : Nat}

/-- Whatever the supply, and whether it fails or not, the plan takes at most eight temporaries and two
labels, and its statements use present registers. -/
structure Frugal (p : Plan) : Prop where
  temps : ∀ supply, (p supply).2.2.temps ≤ supply.temps + 8
  labels : ∀ supply, (p supply).2.2.labels ≤ supply.labels + 2
  present : ∀ supply, ∀ stmt ∈ (p supply).2.1, stmt.Present

theorem Frugal.emitting {e : Emit Unit} (h : Uses 8 2 (fun _ => True) e) :
    Frugal (emitting e) := ⟨h.temps, h.labels, h.present⟩

/-- Reading an operand takes nothing. -/
theorem Frugal.read {Q : α → Prop} {x : Read α} {f : α → Plan} (hx : Gives x Q)
    (hf : ∀ v, Q v → Frugal (f v)) : Frugal (liftM x >>= f) := by
  cases x with
  | error e => exact ⟨fun _ => Nat.le_add_right _ _, fun _ => Nat.le_add_right _ _, by rintro _ _ ⟨⟩⟩
  | ok v => exact hf v (hx v rfl)

variable {s : Source} {dst : Register}

theorem uses_wrapping {op : BinOp} {lhs rhs : Expr} (hd : dst.Present) (hl : lhs.Readable)
    (hr : rhs.Readable) : Uses (n + 2) l (fun _ => True) (wrapping dst op lhs rhs) :=
  .temp_bind (by simp [hl, hr]) fun wide hw => .temp_bind (by simp [hw]) fun result hres =>
    .status_set (by simp [hw]) (by simp [hres]) hd hres

theorem uses_clamped {sign : Sign} {op : BinOp} {lhs rhs : Expr} (hd : dst.Present)
    (hl : lhs.Readable) (hr : rhs.Readable) :
    Uses (n + 1) l (fun _ => True) (clamped sign dst op lhs rhs) :=
  .temp_bind (by simp [hl, hr]) fun wide hw =>
    .status_set (by simp [hw]) (by simp [hw]) hd (by simp [hw])

theorem frugal_addSub (h : s.Present) (op : BinOp) : Frugal (Plan.addSub op s) := by
  refine .read h.binary fun x ⟨hd, hl, hr⟩ => .emitting ?_
  split
  · exact .set hd (by simp [hl, hr])
  · exact uses_wrapping hd hl hr

theorem frugal_addSubSat (h : s.Present) (op : BinOp) (sign : Sign) :
    Frugal (Plan.addSubSat op sign s) :=
  .read h.binary fun _ ⟨hd, hl, hr⟩ => .emitting (uses_clamped hd hl hr)

theorem frugal_carry (h : s.Present) (subtract useCarry : Bool) :
    Frugal (Plan.carry subtract useCarry s) := by
  refine .read h.binary fun x ⟨hd, hl, hr⟩ => .emitting ?_
  refine .temp_bind hl fun lhs hl => .temp_bind (by simp [hr]) fun rhs hr =>
    .temp_bind (by simp [hl, hr]) fun unsigned hu => .temp_bind (by simp [hl, hr]) fun signed hs =>
    .temp_bind (by simp [hu]) fun result hres => .free_bind (.setFlag (by simp [hu])) fun _ _ =>
    .status_set (by simp [hs]) (by simp [hres]) hd hres

theorem gives_reversed (h : s.Present) :
    Gives (Plan.reversed s) fun x => x.1.Present ∧ x.2.1.Readable ∧ x.2.2.Readable := by
  unfold Plan.reversed
  split
  · exact (h.reg 0).bind fun _ hd => (h.value 2).bind fun _ ha => (h.value 1).bind fun _ hb =>
      .ok ⟨hd, ha, hb⟩
  · exact (h.reg 0).bind fun _ hd => (h.value 0).bind fun _ hb =>
      .ok ⟨hd, Expr.readable_word, hb⟩
  · exact .error

theorem frugal_condArith (h : s.Present) (subtract negate : Bool) :
    Frugal (Plan.condArith subtract negate s) := by
  unfold Plan.condArith
  refine .read (Q := fun x => x.1.Present ∧ x.2.1.Readable ∧ x.2.2.1.Readable ∧ x.2.2.2.Readable)
    ?_ fun x ⟨hd, hc, hl, hr⟩ => .emitting ?_
  · split
    · exact (h.reg 0).bind fun _ hd => (h.value 1).bind fun _ hc => (h.value 2).bind fun _ hl =>
        (h.value 3).bind fun _ hr => .ok ⟨hd, hc, hl, hr⟩
    · exact (h.reg 0).bind fun _ hd => (h.value 1).bind fun _ hc => (h.value 0).bind fun _ hl =>
        (h.value 2).bind fun _ hr => .ok ⟨hd, hc, hl, hr⟩
    · exact .error
  · exact .temp_bind (by simp [condition, hc]) fun taken ht => .temp_bind hl fun lhs hl =>
      .temp_bind (by simp [hl, hr]) fun wide hw => .temp_bind (by simp [hw]) fun result hres =>
      .status_set (by simp [ht, hw]) (by simp [ht, hres]) hd (by simp [ht, hres, hl])

theorem readable_shiftCount {unused : Value} {count : Expr} (h : count.Readable) :
    (shiftCount unused count).Readable := by
  cases count with
  | const => exact Expr.readable_const
  | _ => exact Expr.readable_asr.2 ⟨Expr.readable_shl.2 ⟨h, Expr.readable_const⟩, Expr.readable_const⟩

theorem frugal_shift (h : s.Present) (kind : ShiftKind) : Frugal (Plan.shift kind s) := by
  refine .read h.binary fun x ⟨hd, hs, hc⟩ => .emitting ?_
  refine .temp_bind hs fun src hs => .temp_bind (readable_shiftCount hc) fun count hc => ?_
  cases kind with
  | logical => exact .set hd (by simp [hs, hc])
  | arithmetic =>
    exact .temp_bind (by simp [hc]) fun left hl => .temp_bind (by simp [hs, hc]) fun wide hw =>
      .temp_bind (by simp [hs, hc, hl]) fun result hres =>
      .free_bind (.setFlag (by simp [hs, hc, hl])) fun _ _ =>
      .status_set (by simp [hl, hw]) (by simp [hres]) hd hres
  | saturating =>
    exact .temp_bind (by simp [hc]) fun left hl => .temp_bind (by simp [hs, hc]) fun wide hw =>
      .temp_bind (by simp [hs, hc, hl, hw]) fun result hres =>
      .status_set (by simp [hl, hw]) (by simp [hres]) hd hres

theorem frugal_halfShift (h : s.Present) (right : BinOp) : Frugal (Plan.halfShift right s) :=
  .read h.binary fun _ ⟨hd, hs, hc⟩ => .emitting <|
    .temp_bind hs fun src hs => .temp_bind (readable_shiftCount hc) fun count hc =>
    .set hd (Expr.readable_pack (by simp [hs, hc]))

/-- A lane's value and status are readable. -/
def LaneResult.Readable (r : LaneResult) : Prop :=
  r.value.Readable ∧ ∀ x ∈ r.status?, x.1.Readable ∧ x.2.Readable

theorem uses_laneResult {op : LaneOp} {w : Width} {a b : Expr} (ha : a.Readable)
    (hb : b.Readable) : Uses 1 0 LaneResult.Readable (laneResult op w a b) := by
  have hexact {s : Sign} {sat : Bool} {e : Expr} (he : e.Readable) :
      Uses 1 0 LaneResult.Readable (exactLane w s sat e) := by
    refine .temp_bind he fun wide hw => .pure ⟨by simp [hw], ?_⟩
    rintro _ ⟨⟩
    exact ⟨by simp [hw], by simp [hw]⟩
  have hplain {e : Expr} (he : e.Readable) : LaneResult.Readable ⟨e, none⟩ :=
    ⟨he, by rintro _ ⟨⟩⟩
  cases op with
  | add | addSat | sub | subSat => exact hexact (by simp [ha, hb])
  | abs | absSat | absDiff | absDiffSat => exact hexact (by simp [magnitude, ha, hb])
  | min | max | eq | lt => exact .pure (hplain (by simp [less, allOnes, ha, hb]))
  | shift | shiftArithmetic => exact .pure (hplain ha)

theorem uses_lanes {op : LaneOp} {lane : Lane} {a b : Expr} (hd : dst.Present) (ha : a.Readable)
    (hb : b.Readable) : Uses 8 2 (fun _ => True) (Plan.lanes op lane dst a b) := by
  refine .temp_bind ha fun a ha => .temp_bind hb fun b hb => ?_
  -- A word has at most four lanes, each with one temporary.
  have hall : Uses ((List.range lane.count).length * 1) 0 (fun rs => ∀ r ∈ rs, r.Readable)
      ((List.range lane.count).mapM fun i =>
        laneResult op lane.width (a.lane lane i) (b.lane lane i)) :=
    .mapM fun i _ => uses_laneResult (by simp [ha]) (by simp [hb])
  have hfour : (List.range lane.count).length * 1 ≤ 4 := by cases lane <;> decide
  refine (hall.mono hfour).bind (n := 2) (l := 2) fun parts hparts => ?_
  refine .temp_bind (Expr.readable_pack ?_) fun result hres => ?_
  · intro e he
    obtain ⟨r, hr, rfl⟩ := List.mem_map.1 he
    exact (hparts r hr).1
  · have hstatus : ∀ x ∈ parts.filterMap (·.status?), x.1.Readable ∧ x.2.Readable := by
      intro x hx
      obtain ⟨r, hr, hx⟩ := List.mem_filterMap.1 hx
      exact (hparts r hr).2 x hx
    cases hflags : parts.filterMap (·.status?) with
    | nil => exact .set hd hres
    | cons first rest =>
      rw [hflags] at hstatus
      refine .status_set (Expr.readable_any fun e he => ?_) (Expr.readable_any fun e he => ?_) hd hres
      · obtain ⟨x, hx, rfl⟩ := List.mem_map.1 he
        exact (hstatus x hx).1
      · obtain ⟨x, hx, rfl⟩ := List.mem_map.1 he
        exact (hstatus x hx).2

theorem frugal_packed (h : s.Present) (op : LaneOp) (lane : Lane) :
    Frugal (Plan.packed op lane s) := by
  cases op with
  | shift => exact frugal_halfShift h .lsr
  | shiftArithmetic => exact frugal_halfShift h .asr
  | abs | absSat =>
    exact .read (h.reg 0) fun _ hd => .read (h.value 1) fun _ ha =>
      .emitting (uses_lanes hd ha Expr.readable_const)
  | _ => exact .read h.binary fun _ ⟨hd, ha, hb⟩ => .emitting (uses_lanes hd ha hb)

theorem frugal_compare (h : s.Present) (c : Condition) (acc : Option Combine) :
    Frugal (Plan.compare c acc s) := by
  unfold Plan.compare
  refine .read (Q := fun x => x.1.Present ∧ x.2.1.Readable ∧ x.2.2.Readable) ?_
    fun x ⟨hd, hl, hr⟩ => .emitting ?_
  · split
    · exact (h.reg 0).bind fun _ hd => (h.value 1).bind fun _ hl => (h.value 2).bind fun _ hr =>
        .ok ⟨hd, hl, hr⟩
    · exact (h.reg 0).bind fun _ hd => (h.value 1).bind fun _ hl =>
        .ok ⟨hd, hl, Expr.readable_word⟩
    · exact .error
  · cases acc <;> exact .set hd (by simp [hd, hl, hr])

theorem frugal_anyEqual (h : s.Present) (lane : Lane) : Frugal (Plan.anyEqual lane s) := by
  refine .read h.binary fun x ⟨hd, ha, hb⟩ => .emitting ?_
  refine .temp_bind ha fun a ha => .temp_bind hb fun b hb => .set hd ?_
  refine Expr.readable_zext.2 (Expr.readable_any fun e he => ?_)
  obtain ⟨i, -, rfl⟩ := List.mem_map.1 he
  simp [ha, hb]

theorem frugal_count (h : s.Present) (kind : CountKind) (lane : Lane) :
    Frugal (Plan.count kind lane s) := by
  refine .read h.unary fun x ⟨hd, hs⟩ => .emitting ?_
  refine .temp_bind hs fun src hs => .set hd (Expr.readable_pack fun e he => ?_)
  obtain ⟨i, -, rfl⟩ := List.mem_map.1 he
  cases kind <;> simp [Plan.counted, hs]

theorem uses_setWord {sign : Sign} {sat : Bool} {sum : Expr} (hd : dst.Present)
    (hs : sum.Readable) : Uses n l (fun _ => True) (setWord dst sign sat sum) :=
  .status_set (by simp [hs]) (by simp [hs]) hd (by simp [hs])

theorem uses_setProduct {product : Expr} (hd : dst.Present) (hp : product.Readable) :
    Uses n l (fun _ => True) (setProduct dst product) :=
  .status_set (by simp) (by simp [hp]) hd hp

theorem readable_accumulated {op : Accumulate} {acc product : Expr} (ha : acc.Readable)
    (hp : product.Readable) : (accumulated op acc product).Readable := by
  cases op <;> simp [accumulated, ha, hp]

theorem uses_setAccumulated {op : Accumulate} {sat : Bool} {acc product : Expr} (hd : dst.Present)
    (ha : acc.Readable) (hp : product.Readable) :
    Uses (n + 2) l (fun _ => True) (setAccumulated dst op sat acc product) :=
  .temp_bind (readable_accumulated ha hp) fun result hres =>
    .temp_bind (by simp [signOverflow, ha, hp, hres]) fun v hv =>
    .status_set (by simp [hv]) (by simp [hres]) hd (by simp [clampedToward, hv, ha, hres])

theorem uses_setAccumulatedU {subtract sat : Bool} {acc product : Expr} (hd : dst.Present)
    (ha : acc.Readable) (hp : product.Readable) :
    Uses (n + 2) l (fun _ => True) (setAccumulatedU dst subtract sat acc product) :=
  .temp_bind (readable_accumulated ha hp) fun result hres =>
    .temp_bind (by simp [ha, hp, hres]) fun v hv =>
    .status_set (by simp [hv]) (by simp [hres]) hd (by simp [hv, hres])

theorem frugal_multiply (h : s.Present) (sign : Sign) (wide sat : Bool) :
    Frugal (Plan.multiply sign wide sat s) := by
  refine .read h.binary fun x ⟨hd, ha, hb⟩ => .emitting ?_
  refine .temp_bind (by simp [ha, hb]) fun product hp => ?_
  cases wide with
  | true => exact uses_setProduct hd hp
  | false => exact uses_setWord hd hp

theorem frugal_multiplyAdd (h : s.Present) (subtract : Bool) (sign : Sign) (wide sat : Bool) :
    Frugal (Plan.multiplyAdd subtract sign wide sat s) := by
  refine .read (h.reg 0) fun dst hd => .read (h.value 1) fun acc hacc =>
    .read (h.value 2) fun a ha => .read (h.value 3) fun b hb => .emitting ?_
  refine .temp_bind (by simp [ha, hb]) fun product hp => ?_
  cases wide with
  | true =>
    refine .temp_bind hacc fun acc hacc => ?_
    cases sign with
    | signed => exact uses_setAccumulated hd hacc hp
    | unsigned => exact uses_setAccumulatedU hd hacc hp
  | false =>
    cases sign with
    | signed =>
      exact .temp_bind (readable_accumulated (by simp [hacc]) hp) fun _ hs => uses_setWord hd hs
    | unsigned =>
      exact .temp_bind (readable_accumulated (by simp [hacc]) (by simp [hp])) fun _ hs =>
        uses_setWord hd hs

theorem readable_half {x : Expr} {upper : Bool} (hx : x.Readable) : (half x upper).Readable := by
  simp [half, hx]

theorem readable_halfProduct {x y : Expr} {k : Nat} (hx : x.Readable) (hy : y.Readable) :
    (halfProduct x y k).Readable := by
  simp [halfProduct, bothLeast, shiftedProduct, hx, hy]

theorem readable_fractionProduct {src : FractionSource} {wide : Bool} {x y : Expr} {k : Nat}
    (hx : x.Readable) (hy : y.Readable) : (fractionProduct src wide x y k).Readable := by
  cases src <;>
    simp [fractionProduct, wordProduct, bothLeast, shiftedProduct, readable_half,
      readable_halfProduct, hx, hy]

theorem readable_rounding {round : Bool} {e : Expr} (he : e.Readable) :
    (rounding round e).Readable := by
  simp [rounding, he]

theorem readable_fit {sat : Bool} {e : Expr} (he : e.Readable) : (fit sat e).Readable := by
  simp [fit, he]

/-- Operands of a product: the accumulator is there only if something is accumulated. -/
theorem gives_accumulator (h : s.Present) (acc : Accumulate) :
    Gives (if acc = .none then pure none else some <$> s.value 1 : Read (Option Expr))
      fun acc? => ∀ e ∈ acc?, e.Readable := by
  split
  · exact .ok (by rintro _ ⟨⟩)
  · exact .map (h.value 1) fun e he => by rintro _ ⟨⟩; exact he

theorem uses_setMerged {acc? : Option Expr} {hi lo : Accumulate} {sat : Bool} {p1 p0 : Expr}
    (hd : dst.Present) (hacc : ∀ e ∈ acc?, e.Readable) (h1 : p1.Readable) (h0 : p0.Readable) :
    Uses (n + 3) l (fun _ => True) (setMerged dst acc? hi lo sat p1 p0) := by
  refine .temp_bind (by simp [h1, h0]) fun merged hm => ?_
  cases acc? with
  | none => exact uses_setProduct hd hm
  | some acc => exact uses_setAccumulated hd (hacc acc rfl) hm

theorem readable_accumulatorWords (shape : ProductShape) {acc? : Option Expr}
    (hacc : ∀ e ∈ acc?, e.Readable) :
    (accumulatorWords shape acc?).1.Readable ∧ (accumulatorWords shape acc?).2.Readable := by
  cases acc? with
  | none => exact ⟨Expr.readable_const, Expr.readable_const⟩
  | some acc => cases shape <;> simp [accumulatorWords, upperHalf, hacc acc rfl]

theorem uses_setSeparate {acc? : Option Expr} {hi lo : Accumulate} {shape : ProductShape}
    {sat : Bool} {p1 p0 : Expr} (hd : dst.Present) (hacc : ∀ e ∈ acc?, e.Readable)
    (h1 : p1.Readable) (h0 : p0.Readable) :
    Uses (n + 2) l (fun _ => True) (setSeparate dst acc? hi lo shape sat p1 p0) := by
  obtain ⟨ha1, ha0⟩ := readable_accumulatorWords shape hacc
  exact .temp_bind (readable_rounding (readable_accumulated ha1 h1)) fun w1 hw1 =>
    .temp_bind (readable_rounding (readable_accumulated ha0 h0)) fun w0 hw0 =>
    .status_set (by simp [hw1, hw0]) (by simp [hw1, hw0]) hd
      (by simp [upperHalf, readable_fit, hw1, hw0])

theorem frugal_halfMultiply (h : s.Present) (halves : HalfPair) (hi lo : Accumulate)
    (shape : ProductShape) (sat : Bool) : Frugal (Plan.halfMultiply halves hi lo shape sat s) := by
  refine .read (h.reg 0) fun dst hd => .read (gives_accumulator h hi) fun acc? hacc =>
    .read (h.value _) fun a ha => .read (h.value _) fun b hb => .read .any fun k _ => .emitting ?_
  refine Uses.bind (a := 1) (b := 0) (Q := fun acc? => ∀ e ∈ acc?, e.Readable) (n := 7) (l := 2) ?_
    fun acc? hacc => .temp_bind ha fun a ha => .temp_bind hb fun b hb =>
      .temp_bind (readable_halfProduct (readable_half ha) (readable_half hb)) fun p1 h1 =>
      .temp_bind (readable_halfProduct (readable_half ha) (readable_half hb)) fun p0 h0 => ?_
  · cases acc? with
    | none => exact .pure (by rintro _ ⟨⟩)
    | some acc =>
      exact .temp_bind (hacc acc rfl) fun e he => .pure (by rintro _ ⟨⟩; exact he)
  · cases shape with
    | merged => exact uses_setMerged hd hacc h1 h0
    | pair | rounded | roundedWide => exact uses_setSeparate hd hacc h1 h0

theorem frugal_fractionMultiply (h : s.Present) (src : FractionSource) (wide : Bool)
    (acc : Accumulate) (round sat : Bool) :
    Frugal (Plan.fractionMultiply src wide acc round sat s) := by
  refine .read (h.reg 0) fun dst hd => .read (gives_accumulator h acc) fun acc? hacc =>
    .read (h.value _) fun a ha => .read (h.value _) fun b hb => .read .any fun k _ => .emitting ?_
  refine .temp_bind ha fun a ha => .temp_bind hb fun b hb =>
    .temp_bind (readable_fractionProduct ha hb) fun product hp => ?_
  cases wide with
  | true =>
    cases acc? with
    | none => exact uses_setProduct hd hp
    | some value =>
      exact .temp_bind (hacc value rfl) fun _ hv => uses_setAccumulated hd hv hp
  | false =>
    refine .temp_bind (readable_rounding (readable_accumulated ?_ hp)) fun result hres =>
      .status_set (by simp [hres]) (by simp [hres]) hd (by simp [upperHalf, readable_fit, hres])
    cases acc? with
    | none => exact Expr.readable_const
    | some value => exact hacc value rfl

theorem readable_divisionOverflow {sign : Sign} {x y : Expr} (hx : x.Readable) (hy : y.Readable) :
    (divisionOverflow sign x y).Readable := by
  cases sign <;> simp [divisionOverflow, hx, hy]

theorem readable_dividend {sign : Sign} {k : Nat} {x y : Expr} (hx : x.Readable)
    (hy : y.Readable) : (dividend sign k x y).Readable := by
  cases sign <;> simp [dividend, hx, hy]

theorem frugal_divide (h : s.Present) (sign : Sign) : Frugal (Plan.divide sign s) := by
  refine .read (h.reg 0) fun dst hd => .read (h.value 1) fun a ha => .read (h.value 2) fun b hb => ?_
  cases sign <;>
    exact .emitting <| .temp_bind ha fun a ha => .temp_bind hb fun b hb =>
      .temp_bind (by simp [ha, hb]) fun quotient hq =>
      .free_bind (.overflowStatus (readable_divisionOverflow ha hb) (by simp [hq])) fun _ _ =>
      .set hd (by simp [ha, hb, hq])

theorem frugal_divideInit (h : s.Present) (lane : Lane) (sign : Sign) :
    Frugal (Plan.divideInit lane sign s) :=
  .read (h.reg 0) fun _ hd => .read (h.value 1) fun _ ha => .read (h.value 2) fun _ hb =>
    .emitting <| .temp_bind ha fun _ ha => .temp_bind hb fun _ hb =>
    .free_bind (.overflowStatus (readable_divisionOverflow ha hb) (by simp)) fun _ _ =>
    .set hd (readable_dividend ha hb)

theorem readable_fieldMask {pos width : Amount} (hp : pos.expr.Readable)
    (hw : width.expr.Readable) : (fieldMask pos width).Readable := by
  cases pos with
  | static pos =>
    cases width with
    | static width => exact Expr.readable_word
    | dynamic width => simp [fieldMask, hw, hp]
  | dynamic pos => simp [fieldMask, hw, hp]

theorem frugal_extract (h : s.Present) (sign : Sign) : Frugal (Plan.extract sign s) := by
  refine .read (h.reg 0) fun dst hd => .read (h.value 1) fun src hs =>
    .read (h.field 2) fun x ⟨hp, hw⟩ => ?_
  obtain ⟨pos, width⟩ := x
  have hdynamic {width : Expr} (hwidth : width.Readable) (shift : BinOp) :
      Uses 8 2 (fun _ => True) (do
        let width ← temp width
        let up := Expr.sub .word (.sub .word (.const .word 32) pos.expr) width
        let down := Expr.sub .word (.const .word 32) width
        set dst (.binary shift .word (.shl .word src up) down)) :=
    .temp_bind hwidth fun width hwidth => .set hd (by simp [hs, hp, hwidth])
  cases pos with
  | static pos =>
    cases width with
    | static width => exact .emitting (.set hd (by simp [hs]))
    | dynamic width => exact .emitting (hdynamic hw _)
  | dynamic pos => exact .emitting (hdynamic hw _)

theorem frugal_insert (h : s.Present) : Frugal (Plan.insert s) :=
  .read (h.reg 0) fun _ hd => .read (h.value 1) fun _ hb => .read (h.value 2) fun _ hs =>
    .read (h.field 3) fun _ ⟨hp, hw⟩ => .emitting <|
    .temp_bind (readable_fieldMask hp hw) fun _ hm => .set hd (by simp [hb, hs, hp, hm])

theorem frugal_insertMask (h : s.Present) : Frugal (Plan.insertMask s) :=
  .read (h.reg 0) fun _ hd => .read (h.value 1) fun _ hs => .read (h.field 2) fun _ ⟨hp, hw⟩ =>
    .emitting (.set hd (by simp [readable_fieldMask hp hw, hs, hp]))

theorem frugal_extractDouble (h : s.Present) : Frugal (Plan.extractDouble s) :=
  .read (h.reg 0) fun _ hd => .read (h.value 1) fun _ hh => .read (h.value 2) fun _ hl =>
    .read (h.amount 3) fun _ hp => .emitting (.set hd (by simp [hh, hl, hp]))

theorem frugal_bitLogic (h : s.Present) (op : LogicOp) (acc : Option Combine) :
    Frugal (Plan.bitLogic op acc s) := by
  refine .read (h.reg 0) fun _ hd => .read (h.bit 1) fun _ ha => .read (h.bit 3) fun _ hb => ?_
  cases acc <;> exact .emitting (.set hd (by simp [hd, ha, hb]))

theorem frugal_insertBit (h : s.Present) (negate : Bool) : Frugal (Plan.insertBit negate s) :=
  .read (h.reg 0) fun _ hd => .read (h.value 1) fun _ ha => .read .any fun _ _ =>
    .read (h.bit 3) fun _ hb => .emitting (.set hd (by simp [ha, hb]))

/-- The address and the registers of the updates. -/
def Addressed.Present (x : Addressed) : Prop :=
  x.addr.Readable ∧ ∀ stmt ∈ x.updates, stmt.Present

theorem exists_pairParts {r : Register} (h : r.Present) :
    ∃ base index, pairParts r = (base, index) ∧ base.Present ∧ index.Present := by
  unfold pairParts
  cases hx : r.halves? with
  | none => exact ⟨r, r, rfl, h, h⟩
  | some x => exact ⟨x.1, x.2, rfl, h.halves hx⟩

theorem uses_access {place : Place} (h : ∀ r ∈ place.register?, r.Present) :
    Uses 5 0 Addressed.Present (access place) := by
  have hupdate {addr e : Expr} {r : Register} (ha : addr.Readable) (hr : r.Present)
      (he : e.Readable) : Addressed.Present ⟨addr, [.setReg r e]⟩ := by
    refine ⟨ha, fun stmt hs => ?_⟩
    rw [List.mem_singleton.1 hs]
    exact ⟨he, fun _ hx => List.mem_singleton.1 hx ▸ hr⟩
  cases place with
  | absolute addr => exact .pure ⟨Expr.readable_const, by simp⟩
  | based base offset => exact .pure ⟨by simp [h base rfl], by simp⟩
  | postIncrement base offset =>
    have hb := h base rfl
    exact .temp_bind (by simp [hb]) fun _ ha => .pure (hupdate ha hb (by simp [ha]))
  | preIncrement base offset =>
    have hb := h base rfl
    exact .temp_bind (by simp [hb]) fun _ ha => .pure (hupdate ha hb ha)
  | bitReverse pair =>
    obtain ⟨base, index, hparts, hb, hi⟩ := exists_pairParts (h pair rfl)
    simp only [access, hparts]
    refine .temp_bind (by simp [hb, hi]) fun _ ha => .pure ⟨ha, fun stmt hs => ?_⟩
    rw [List.mem_singleton.1 hs]
    exact ⟨by simpa [Stmt.reads, Expr.reads] using hi, by simpa [Stmt.named] using hi⟩
  | circular pair offset =>
    obtain ⟨base, state, hparts, hb, hi⟩ := exists_pairParts (h pair rfl)
    simp only [access, circular, hparts]
    exact .temp_bind (by simp [hi]) fun index hindex => .temp_bind (by simp [hi]) fun length hlen =>
      .temp_bind (by simp [hb, hindex]) fun addr ha =>
      .temp_bind (by simp [hindex]) fun stepped hs =>
      .temp_bind (by simp [hs, hlen]) fun stepped hs =>
      .pure (hupdate ha hi (by simp [hs, hlen]))

theorem frugal_loadAddress (h : s.Present) : Frugal (Plan.loadAddress s) :=
  .read (h.reg 0) fun _ hd => .read (h.place 1) fun _ hp => .emitting <|
    (uses_access hp).bind fun _ ⟨ha, _⟩ => .set hd ha

theorem frugal_load (h : s.Present) (kind : Access) : Frugal (Plan.load kind s) := by
  refine .read (h.reg 0) fun _ hd => .read (h.place 1) fun _ hp => .emitting <|
    (uses_access hp).bind fun _ ⟨ha, hu⟩ => .free_bind (.set hd ?_) fun _ _ => .emitAll hu
  cases kind <;> simp [ha]

theorem frugal_store (h : s.Present) (kind : Access) : Frugal (Plan.store kind s) := by
  refine .read (h.place 0) fun _ hp => .read (h.value 1) fun _ hs => .emitting <|
    (uses_access hp).bind fun _ ⟨ha, hu⟩ => .free_bind (.store ha ?_) fun _ _ => .emitAll hu
  cases kind <;> simp [hs]

theorem frugal_storeBit (h : s.Present) : Frugal (Plan.storeBit s) :=
  .read (h.place 0) fun _ hp => .read .any fun _ _ => .read .any fun _ _ => .emitting <|
    (uses_access hp).bind fun _ ⟨ha, hu⟩ =>
    .free_bind (.store ha (by simp [ha])) fun _ _ => .emitAll hu

theorem frugal_loadModifyStore (h : s.Present) : Frugal (Plan.loadModifyStore s) :=
  .read (h.place 0) fun _ hp => .read (h.pair 1) fun _ ⟨hv, hm⟩ => .emitting <|
    (uses_access hp).bind fun _ ⟨ha, hu⟩ => .temp_bind ha fun _ ha =>
    .free_bind (.store ha (by simp [masked, ha, hv, hm])) fun _ _ => .emitAll hu

theorem frugal_swap (h : s.Present) : Frugal (Plan.swap s) :=
  .read (h.place 0) fun _ hp => .read (h.reg 1) fun _ hr => .emitting <|
    (uses_access hp).bind fun _ ⟨ha, hu⟩ => .temp_bind ha fun _ ha =>
    .temp_bind (by simp [ha]) fun _ ho => .free_bind (.store ha (by simp [hr])) fun _ _ =>
    .free_bind (.set hr ho) fun _ _ => .emitAll hu

theorem frugal_compareSwap (h : s.Present) : Frugal (Plan.compareSwap s) :=
  .read (h.place 0) fun _ hp => .read (h.pair 1) fun _ ⟨hv, he⟩ => .emitting <|
    (uses_access hp).bind fun _ ⟨ha, hu⟩ => .temp_bind ha fun _ ha =>
    .temp_bind (by simp [ha]) fun _ ho => Uses.newLabel.bind (a := 0) (b := 1) fun _ _ =>
    Uses.newLabel.bind (a := 0) (b := 1) fun _ _ =>
    .free_bind (.emit (Stmt.present_branch (by simp [ho, he]))) fun _ _ =>
    .free_bind .mark fun _ _ => .free_bind (.store ha (by simp [hv])) fun _ _ =>
    .free_bind .mark fun _ _ => .free_bind (.set hv ho) fun _ _ => .emitAll hu

theorem frugal_swapMasked (h : s.Present) : Frugal (Plan.swapMasked s) :=
  .read (h.place 0) fun _ hp => .read (h.pair 1) fun _ ⟨hv, hm⟩ => .emitting <|
    (uses_access hp).bind fun _ ⟨ha, hu⟩ => .temp_bind ha fun _ ha =>
    .temp_bind (by simp [ha]) fun _ ho =>
    .free_bind (.store ha (by simp [masked, ho, hv, hm])) fun _ _ =>
    .free_bind (.set hv ho) fun _ _ => .emitAll hu

theorem frugal_addressed (h : s.Present) {i : Intrinsic} {outputs : List Register}
    (ho : ∀ r ∈ outputs, r.Present) : Frugal (Plan.addressed i outputs s) :=
  .read (h.place 0) fun _ hp => .emitting <| (uses_access hp).bind fun _ ⟨ha, hu⟩ =>
    .free_bind (.intrinsic ho (by simpa using ha)) fun _ _ => .emitAll hu

theorem present_upperRegisters : ∀ r ∈ upperRegisters, r.Present := by decide

theorem present_lowerRegisters : ∀ r ∈ lowerRegisters, r.Present := by decide

theorem frugal_context (h : s.Present) (i : Intrinsic) : Frugal (Plan.context i s) := by
  refine frugal_addressed h ?_
  cases i with
  | loadLowerContext => exact present_lowerRegisters
  | loadUpperContext => exact present_upperRegisters
  | _ => rintro _ ⟨⟩

/-! ### Control flow and platform -/

theorem uses_jumpTo {target : Address} : Uses n l (fun _ => True) (jumpTo target) := by
  refine .free_bind .labelAt? fun label? _ => ?_
  cases label? with
  | none => exact .emit (Stmt.present_jump Expr.readable_word)
  | some label => exact .emit Stmt.present_goto

theorem uses_labelOrNew (l? : Option Label) : Uses n (l + 1) (fun _ => True)
    (match l? with | some l => pure l | none => newLabel : Emit Label) := by
  cases l? with
  | none => exact .newLabel
  | some label => exact .pure trivial

theorem uses_branchTo {cond : Expr} {target next : Address} (hc : cond.Readable) :
    Uses n 2 (fun _ => True) (branchTo cond target next) := by
  refine .free_bind .labelAt? fun taken? _ => .free_bind .labelAt? fun fall? _ =>
    (uses_labelOrNew taken?).bind (a := 0) (b := 1) fun taken _ =>
    (uses_labelOrNew fall?).bind (a := 0) (b := 1) fun fall _ =>
    .free_bind (.emit (Stmt.present_branch hc)) fun _ _ => ?_
  have hjump : Stmt.Present (.jump (.word target)) := Stmt.present_jump Expr.readable_word
  cases taken? with
  | some =>
    cases fall? with
    | some => exact .pure trivial
    | none => exact .mark
  | none =>
    cases fall? with
    | some => exact .free_bind .mark fun _ _ => .emit hjump
    | none => exact .free_bind .mark fun _ _ => .free_bind (.emit hjump) fun _ _ => .mark

theorem present_link : Register.link.Present := show 11 < 16 by decide

theorem present_stackPointer : Register.stackPointer.Present := show 10 < 16 by decide

theorem uses_linkOnly {next : Address} : Uses n l (fun _ => True) (Plan.linkOnly next) :=
  .set present_link (by simp)

theorem uses_saveAndLink {next : Address} : Uses n l (fun _ => True) (saveAndLink next) :=
  .free_bind (.intrinsic (by decide) (by simp)) fun _ _ => uses_linkOnly

theorem uses_pushLink {next : Address} : Uses n l (fun _ => True) (pushLink next) :=
  .free_bind (.set present_stackPointer (by simp [present_stackPointer])) fun _ _ =>
    .free_bind (.store (by simp [present_stackPointer]) (by simp [present_link])) fun _ _ =>
    uses_linkOnly

theorem frugal_jumpIndirect (h : s.Present) : Frugal (Plan.jumpIndirect s) :=
  .read (h.reg 0) fun _ hr => .emitting <|
    .temp_bind (by simp [hr]) fun _ he => .emit (Stmt.present_jump he)

theorem frugal_callDirect {link : Address → Emit Unit}
    (hl : ∀ next, Uses 0 0 (fun _ => True) (link next)) : Frugal (Plan.callDirect link s) :=
  .read .any fun _ _ => .emitting <| .free_bind (hl s.next) fun _ _ =>
    .emit (Stmt.present_call Expr.readable_word)

theorem frugal_callThrough (h : s.Present) {link : Address → Emit Unit}
    (hl : ∀ next, Uses 0 0 (fun _ => True) (link next)) : Frugal (Plan.callThrough link s) :=
  .read (h.reg 0) fun _ hr => .emitting <| .temp_bind (by simp [hr]) fun _ hdest =>
    .free_bind (hl s.next) fun _ _ => .emit (Stmt.present_call hdest)

theorem frugal_ret : Frugal Plan.ret :=
  .emitting <| .temp_bind (by simp [present_link]) fun _ hdest =>
    .free_bind (.intrinsic present_upperRegisters (by simp)) fun _ _ =>
    .emit (Stmt.present_ret hdest)

theorem frugal_fastRet : Frugal Plan.fastRet :=
  .emitting <| .temp_bind (by simp [present_link]) fun _ hdest =>
    .free_bind (.set present_link (by simp [present_stackPointer])) fun _ _ =>
    .free_bind (.set present_stackPointer (by simp [present_stackPointer])) fun _ _ =>
    .emit (Stmt.present_ret hdest)

theorem frugal_retMonitor : Frugal Plan.retMonitor :=
  .emitting <| .temp_bind (by simp [present_link]) fun _ hdest =>
    .free_bind (.intrinsic (by decide) (by simp)) fun _ _ => .emit (Stmt.present_ret hdest)

theorem frugal_branch (h : s.Present) (c : Condition) : Frugal (Plan.branch c s) := by
  refine .read (h.value 0) fun _ hl => .read (Q := Expr.Readable) ?_ fun _ hr =>
    .read .any fun _ _ => .emitting (uses_branchTo (by simp [hl, hr]))
  split
  · exact h.value 1
  · exact .ok Expr.readable_const

theorem frugal_branchBit (h : s.Present) (wanted : Bool) : Frugal (Plan.branchBit wanted s) :=
  .read (h.value 0) fun _ hb => .read .any fun _ _ => .read .any fun _ _ =>
    .emitting (uses_branchTo (by simp [hb]))

theorem frugal_branchStep (h : s.Present) (step : Word) : Frugal (Plan.branchStep step s) :=
  .read (h.reg 0) fun _ hr => .read (h.value 1) fun _ hv => .read .any fun _ _ => .emitting <|
    .temp_bind (by simp [hr, hv]) fun _ hdiffer => .free_bind (.set hr (by simp [hr])) fun _ _ =>
    uses_branchTo (by simp [isSet, hdiffer])

theorem frugal_loop (h : s.Present) : Frugal (Plan.loop s) :=
  .read (h.reg 0) fun _ hr => .read .any fun _ _ => .emitting <|
    .temp_bind (by simp [hr]) fun _ hagain => .free_bind (.set hr (by simp [hr])) fun _ _ =>
    uses_branchTo (by simp [isSet, hagain])

theorem frugal_platform (h : s.Present) (i : Intrinsic) : Frugal (Plan.platform i s) := by
  cases i with
  | disableInterruptsSaving =>
    exact .read (h.reg 0) fun _ hd => .emitting (.intrinsic (by simpa using hd) (by simp))
  | restoreLowerContext => exact .emitting (.intrinsic present_lowerRegisters (by simp))
  | saveLowerContext | bisr =>
    exact .read (h.values 0) fun _ hv => .emitting (.intrinsic (by decide) hv)
  | _ => exact .read (h.values 0) fun _ hv => .emitting (.intrinsic (by simp) hv)

theorem frugal_trapOn (f : Flag) : Frugal (Plan.trapOn f) :=
  .emitting <| Uses.newLabel.bind (a := 0) (b := 1) fun _ _ =>
    Uses.newLabel.bind (a := 0) (b := 1) fun _ _ =>
    .free_bind (.emit (Stmt.present_branch Expr.readable_flag)) fun _ _ =>
    .free_bind .mark fun _ _ => .free_bind (.intrinsic (by simp) (by simp)) fun _ _ => .mark

theorem frugal_readCsfr (h : s.Present) : Frugal (Plan.readCsfr s) :=
  .read (h.reg 0) fun _ hd => .read .any fun _ _ =>
    .emitting (.intrinsic (by simpa using hd) (by simp))

theorem present_canonical (offset : BitVec 16) : (Register.canonical (.csfr offset)).Present := by
  simp only [Register.canonical, Register.viewed?]
  split_ifs <;> simp only [Option.getD_some, Option.getD_none, Register.Present] <;> omega

theorem frugal_writeCsfr (h : s.Present) : Frugal (Plan.writeCsfr s) :=
  .read .any fun offset _ => .read (h.value 1) fun _ hv =>
    .emitting (.intrinsic (by simpa using present_canonical offset) (by simpa using hv))

theorem frugal_dataIntrinsic (h : s.Present) (i : Intrinsic) : Frugal (Plan.dataIntrinsic i s) :=
  .read (h.reg 0) fun _ hd => .read (h.values 1) fun _ hv =>
    .emitting (.intrinsic (by simpa using hd) hv)

/-! ### Floating point -/

theorem uses_floatFlags {fs : List Flag} {op : FloatCheck} {args : List Expr}
    (h : ∀ e ∈ args, e.Readable) : Uses n l (fun _ => True) (floatFlags fs op args) := by
  refine .free_bind (.emitAll fun stmt hs => ?_) fun _ _ =>
    .setFlag (Expr.readable_any fun e he => ?_)
  · obtain ⟨f, -, rfl⟩ := List.mem_map.1 hs
    exact Stmt.present_setFlag (Expr.readable_floatStatus.2 h)
  · obtain ⟨f, -, rfl⟩ := List.mem_map.1 he
    exact Expr.readable_flag

theorem frugal_float (h : s.Present) (op : FloatOp) : Frugal (Plan.float op s) := by
  refine .read (h.reg 0) fun _ hd => .read (h.value 1) fun _ ha => .read (h.value 2) fun _ hb => ?_
  cases op <;>
    exact .emitting <| .temp_bind ha fun _ ha => .temp_bind hb fun _ hb =>
      .free_bind (uses_floatFlags (by simp [ha, hb])) fun _ _ => .set hd (by simp [ha, hb])

theorem frugal_floatMultiplyAdd (h : s.Present) (subtract : Bool) :
    Frugal (Plan.floatMultiplyAdd subtract s) :=
  .read (h.reg 0) fun _ hd => .read (h.value 1) fun _ hacc => .read (h.value 2) fun _ ha =>
    .read (h.value 3) fun _ hb => .emitting <| .temp_bind hacc fun _ hacc =>
    .temp_bind ha fun _ ha => .temp_bind hb fun _ hb =>
    .free_bind (uses_floatFlags (by simp [hacc, ha, hb])) fun _ _ =>
    .set hd (by simp [hacc, ha, hb])

theorem frugal_floatCompare (h : s.Present) : Frugal (Plan.floatCompare s) :=
  .read (h.reg 0) fun _ hd => .read (h.value 1) fun _ ha => .read (h.value 2) fun _ hb =>
    .emitting <| .temp_bind ha fun _ ha => .temp_bind hb fun _ hb =>
    .free_bind (uses_floatFlags (by simp [ha, hb])) fun _ _ =>
    .set hd (by simp [denormal, List.mapIdx_cons, ha, hb])

theorem readable_conversion {c : FloatConversion} {x k : Expr} (hx : x.Readable)
    (hk : k.Readable) : (conversion c x k).value.Readable ∧ (conversion c x k).arg.Readable := by
  cases c <;> simp [conversion, hx, hk]

theorem frugal_floatConvert (h : s.Present) (c : FloatConversion) :
    Frugal (Plan.floatConvert c s) := by
  refine .read (h.reg 0) fun _ hd => .read (h.value 1) fun _ ha =>
    .read (Q := fun k? => ∀ e ∈ k?, e.Readable) ?_ fun k? hk => .emitting <|
    .temp_bind ha fun a ha => Uses.bind (Q := Expr.Readable) (a := 1) (b := 0) (n := 6) (l := 2) ?_
    fun k hk => ?_
  · split
    · exact .map (h.value 2) fun e he => by rintro _ ⟨⟩; exact he
    · exact .ok (by rintro _ ⟨⟩)
  · cases k? with
    | none => exact .pure Expr.readable_const
    | some k => exact .temp (hk k rfl)
  · obtain ⟨hv, harg⟩ := readable_conversion (c := c) ha hk
    exact .free_bind (uses_floatFlags (by simpa using harg)) fun _ _ => .set hd hv

theorem frugal_updateFlags (h : s.Present) : Frugal (Plan.updateFlags s) := by
  refine .read (h.value 0) fun _ hs => .emitting <| .temp_bind hs fun src hs =>
    .emitAll fun stmt hmem => ?_
  obtain ⟨f, -, rfl⟩ := List.mem_map.1 hmem
  exact Stmt.present_setFlag (by simp [hs])

/-! ### All actions -/

/-- Every plan is frugal, whatever its operands are. -/
theorem plan_frugal (h : s.Present) (act : Action) : Frugal (plan s act) := by
  cases act with
  | add => exact frugal_addSub h .add
  | sub => exact frugal_addSub h .sub
  | addSat sign => exact frugal_addSubSat h .add sign
  | subSat sign => exact frugal_addSubSat h .sub sign
  | addCarry => exact frugal_carry h false true
  | addExtended => exact frugal_carry h false false
  | subCarry => exact frugal_carry h true true
  | subExtended => exact frugal_carry h true false
  | rsub =>
    exact .read (gives_reversed h) fun _ ⟨hd, hl, hr⟩ => .emitting (uses_wrapping hd hl hr)
  | rsubSat =>
    exact .read (gives_reversed h) fun _ ⟨hd, hl, hr⟩ => .emitting (uses_clamped hd hl hr)
  | addScaled =>
    exact .read (h.reg 0) fun _ hd => .read (h.value 1) fun _ hb => .read (h.value 2) fun _ hi =>
      .read .any fun _ _ => .emitting (.set hd (by simp [hb, hi]))
  | addBitIndex =>
    exact .read (h.reg 0) fun _ hd => .read (h.value 1) fun _ hb => .read (h.value 2) fun _ hi =>
      .emitting (.set hd (by simp [hb, hi]))
  | packed op lane => exact frugal_packed h op lane
  | saturate =>
    exact .read h.unary fun _ ⟨hd, hs⟩ => .emitting <|
      .temp_bind (by simp [hs]) fun _ hw => .set hd (by simp [hw])
  | compare c => exact frugal_compare h c none
  | compareInto c acc => exact frugal_compare h c (some acc)
  | anyEqual lane => exact frugal_anyEqual h lane
  | logic => exact .read h.binary fun _ ⟨hd, ha, hb⟩ => .emitting (.set hd (by simp [ha, hb]))
  | complement => exact .read h.unary fun _ ⟨hd, hs⟩ => .emitting (.set hd (by simp [hs]))
  | shift kind => exact frugal_shift h kind
  | count kind lane => exact frugal_count h kind lane
  | condArith subtract negate => exact frugal_condArith h subtract negate
  | select =>
    exact .read (h.reg 0) fun _ hd => .read (h.value 1) fun _ hc => .read (h.value 2) fun _ hy =>
      .read (h.value 3) fun _ hn => .emitting (.set hd (by simp [condition, hc, hy, hn]))
  | condMove =>
    exact .read (h.reg 0) fun _ hd => .read (h.value 1) fun _ hc => .read (h.value 2) fun _ hs =>
      .emitting (.set hd (by simp [condition, hc, hs, hd]))
  | move =>
    exact .read (h.reg 0) fun _ hd => .read (h.value 1) fun _ hs =>
      .emitting (.set hd (by simp [hs]))
  | movePair =>
    exact .read (h.reg 0) fun _ hd => .read (h.value 1) fun _ hh => .read (h.value 2) fun _ hl =>
      .emitting (.set hd (by simp [hh, hl]))
  | loadAddress => exact frugal_loadAddress h
  | multiply sign wide sat => exact frugal_multiply h sign wide sat
  | multiplyAdd subtract sign wide sat => exact frugal_multiplyAdd h subtract sign wide sat
  | halfMultiply halves hi lo shape sat => exact frugal_halfMultiply h halves hi lo shape sat
  | fractionMultiply src wide acc round sat =>
    exact frugal_fractionMultiply h src wide acc round sat
  | divide sign => exact frugal_divide h sign
  | divideInit lane sign => exact frugal_divideInit h lane sign
  | extract sign => exact frugal_extract h sign
  | insert => exact frugal_insert h
  | insertMask => exact frugal_insertMask h
  | extractDouble => exact frugal_extractDouble h
  | bitLogic op acc => exact frugal_bitLogic h op acc
  | insertBit negate => exact frugal_insertBit h negate
  | load kind => exact frugal_load h kind
  | store kind => exact frugal_store h kind
  | storeBit => exact frugal_storeBit h
  | loadModifyStore => exact frugal_loadModifyStore h
  | swap => exact frugal_swap h
  | compareSwap => exact frugal_compareSwap h
  | swapMasked => exact frugal_swapMasked h
  | context i => exact frugal_context h i
  | cache => exact frugal_addressed h (by simp)
  | jump | loopForever => exact .read .any fun _ _ => .emitting uses_jumpTo
  | jumpIndirect => exact frugal_jumpIndirect h
  | jumpLink => exact frugal_callDirect fun _ => uses_linkOnly
  | jumpLinkIndirect => exact frugal_callThrough h fun _ => uses_linkOnly
  | call => exact frugal_callDirect fun _ => uses_saveAndLink
  | callIndirect => exact frugal_callThrough h fun _ => uses_saveAndLink
  | fastCall => exact frugal_callDirect fun _ => uses_pushLink
  | fastCallIndirect => exact frugal_callThrough h fun _ => uses_pushLink
  | ret | retException => exact frugal_ret
  | fastRet => exact frugal_fastRet
  | retMonitor => exact frugal_retMonitor
  | branch c => exact frugal_branch h c
  | branchBit wanted => exact frugal_branchBit h wanted
  | branchStep step => exact frugal_branchStep h step
  | loop => exact frugal_loop h
  | platform i => exact frugal_platform h i
  | nop => exact .emitting (.emit ⟨by simp [Stmt.reads], by simp [Stmt.named]⟩)
  | trapOn f => exact frugal_trapOn f
  | readCsfr => exact frugal_readCsfr h
  | writeCsfr => exact frugal_writeCsfr h
  | dataIntrinsic i => exact frugal_dataIntrinsic h i
  | float op => exact frugal_float h op
  | floatMultiplyAdd subtract => exact frugal_floatMultiplyAdd h subtract
  | floatCompare => exact frugal_floatCompare h
  | floatConvert c => exact frugal_floatConvert h c
  | updateFlags => exact frugal_updateFlags h

end Lift

/-! ## Decoded instructions -/

theorem OperandKind.present_of_resolve {k : OperandKind} {format : Format} {fields : Fields}
    {addr : Address} {o : Operand} (hf : k.fixesSingle = true)
    (h : k.resolve format fields addr = .ok o) : o.Present := by
  have hindex (r : RegisterField) : r.index fields < 16 := by
    cases r <;> exact BitVec.isLt _
  have hbase : fields.b.toNat < 16 := fields.b.isLt
  cases k with
  | data r | address r => cases h; exact hindex r
  | dataPair r | addressPair r =>
    obtain ⟨heven, rfl⟩ := of_pair_eq_ok h
    exact ⟨hindex r, heven⟩
  | fixed r =>
    cases h
    cases r with
    | d n | a n => exact show n < 16 from of_decide_eq_true hf
    | _ => cases hf
  | based mode =>
    cases mode with
    | bitReverse | circular =>
      obtain ⟨heven, rfl⟩ := of_pair_eq_ok h
      rintro _ ⟨⟩
      exact ⟨hbase, heven⟩
    | plain | postIncrement | preIncrement => cases h; rintro _ ⟨⟩; exact hbase
  | basedLong | indirect | indirectPost | scaled => cases h; rintro _ ⟨⟩; exact hbase
  | scaledA15 => cases h; rintro _ ⟨⟩; exact show 15 < 16 by decide
  | stackSlot => cases h; rintro _ ⟨⟩; exact show 10 < 16 by decide
  | absolute => cases h; rintro _ ⟨⟩
  | _ => cases h; trivial

/-- The registers of a decoded instruction are present. -/
theorem Instruction.present {isa : Isa} {bytes : List Byte} {addr : Address} {i : Instruction}
    (h : decode isa bytes addr = .ok i) : (Lift.Source.of i).Present := by
  obtain ⟨e, -, -, -, g, hg, hr, hos⟩ := of_decode h
  intro o ho
  obtain ⟨k, hk, hresolve⟩ := exists_of_mem_mapM hos (List.mem_of_mem_filter ho)
  exact k.present_of_resolve (Opcode.fixed_single g hg _ hr k hk) hresolve

theorem Instruction.frugal {isa : Isa} {bytes : List Byte} {addr : Address} {i : Instruction}
    (h : decode isa bytes addr = .ok i) : Lift.Frugal i.plan :=
  Lift.plan_frugal (present h) i.row.action

end Tricore
