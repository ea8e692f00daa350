import Mathlib
import Tricore.Proofs.Atomicity
import Tricore.Proofs.Hosts
import Tricore.Proofs.Resources

/-!
# Labels of an instruction

What the statements of an instruction do with labels (`HandlesLabels`): they mark the labels that the
instruction takes, each once, and continue at these, at the next instruction or at a target only.
Most emissions use no labels at all (`Emit.Labelless`); the others end in a jump, a two-way branch or
a part that is skipped. None of this depends on where the operands come from, so that it holds of
instructions that were never decoded (`Lift.plan_careful`).
-/

namespace Tricore

namespace Label

/-- The labels numbered from `n` up to `n'`. -/
def between (n n' : Nat) : List Label := (List.range' n (n' - n)).map mk

variable {n n' n'' : Nat}

@[simp]
theorem mem_between {l : Label} : l ∈ between n n' ↔ n ≤ l.id ∧ l.id < n' := by
  simp only [between, List.mem_map, List.mem_range'_1]
  constructor
  · rintro ⟨k, hk, rfl⟩
    show n ≤ k ∧ k < n'
    omega
  · exact fun h => ⟨l.id, by omega, rfl⟩

theorem nodup_between : (between n n').Nodup := by
  refine List.Nodup.map (fun a b h => ?_) List.nodup_range'
  exact congrArg id h

@[simp]
theorem between_self : between n n = [] := by simp [between]

@[simp]
theorem between_add_one : between n (n + 1) = [⟨n⟩] := by simp [between]

@[simp]
theorem between_add_two : between n (n + 2) = [⟨n⟩, ⟨n + 1⟩] := by simp [between, List.range'_succ]

theorem between_append (h : n ≤ n') (h' : n' ≤ n'') :
    between n n' ++ between n' n'' = between n n'' := by
  have hlength : n'' - n = n' - n + (n'' - n') := by omega
  have hstart : n' = n + 1 * (n' - n) := by omega
  rw [between, between, between, ← List.map_append, hlength, ← List.range'_append, ← hstart]

end Label

namespace Lift

/-! ## Emissions without labels -/

namespace Emit

variable {α β : Type}

/-- Whatever the supply, the emission neither takes nor uses labels. -/
def Labelless (x : Emit α) : Prop := ∀ supply, x.Unlabelled supply

namespace Labelless

variable {x : Emit α} {f : α → Emit β}

theorem pure (a : α) : Labelless (Pure.pure a) := fun _ => ⟨by rintro _ ⟨⟩, fun _ _ => rfl⟩

theorem bind (hx : x.Labelless) (hf : ∀ a, (f a).Labelless) : (x >>= f).Labelless := fun supply =>
  (hx supply).bind (hf _ _)

theorem mapM {g : β → Emit α} {bs : List β} (h : ∀ b, (g b).Labelless) :
    (bs.mapM g).Labelless := by
  suffices hloop : ∀ acc, (List.mapM.loop g bs acc).Labelless by exact hloop []
  induction bs with
  | nil => exact fun acc => pure _
  | cons b bs ih => exact fun acc => (h b).bind fun a => ih (a :: acc)

theorem emitAll {stmts : List Stmt} (h : Tricore.Unlabelled stmts) : (emitAll stmts).Labelless :=
  fun _ => ⟨h, fun _ _ => rfl⟩

theorem emit {stmt : Stmt} (h : stmt.usesLabel = false) : (emit stmt).Labelless := fun _ =>
  ⟨by simpa [Lift.emit] using h, fun _ _ => rfl⟩

theorem set {r : Register} {v : Expr} : (set r v).Labelless := emit rfl

theorem setFlag {g : Flag} {v : Expr} : (setFlag g v).Labelless := emit rfl

theorem store {w : Width} {addr v : Expr} : (store w addr v).Labelless := emit rfl

theorem intrinsic {i : Intrinsic} {outputs : List Register} {inputs : List Expr} :
    (intrinsic i outputs inputs).Labelless := emit rfl

theorem temp {v : Expr} : (temp v).Labelless := fun _ =>
  ⟨by simp [Lift.temp, Stmt.usesLabel], fun _ _ => rfl⟩

/-- A temporary may be used in whatever follows. -/
theorem temp_bind {v : Expr} {f : Expr → Emit β} (hf : ∀ e, (f e).Labelless) :
    (Lift.temp v >>= f).Labelless := temp.bind hf

theorem overflowStatus {v av : Expr} : (overflowStatus v av).Labelless :=
  setFlag.bind fun _ => setFlag.bind fun _ => setFlag

theorem status {v av : Expr} : (status v av).Labelless := overflowStatus.bind fun _ => setFlag

/-- The status is written first, and then the result. -/
theorem status_set {v av e : Expr} {r : Register} :
    (do Lift.status v av; Lift.set r e : Emit Unit).Labelless := status.bind fun _ => set

theorem wrapping {dst : Register} {op : BinOp} {lhs rhs : Expr} :
    (wrapping dst op lhs rhs).Labelless := temp_bind fun _ => temp_bind fun _ => status_set

theorem clamped {s : Sign} {dst : Register} {op : BinOp} {lhs rhs : Expr} :
    (clamped s dst op lhs rhs).Labelless := temp_bind fun _ => status_set

theorem laneResult {op : LaneOp} {w : Width} {a b : Expr} : (laneResult op w a b).Labelless := by
  cases op with
  | min | max | eq | lt | shift | shiftArithmetic => exact pure _
  | _ => exact temp_bind fun _ => pure _

theorem lanes {op : LaneOp} {l : Lane} {dst : Register} {a b : Expr} :
    (Plan.lanes op l dst a b).Labelless := by
  refine temp_bind fun _ => temp_bind fun _ => (mapM fun _ => laneResult).bind fun parts =>
    temp_bind fun _ => ?_
  cases parts.filterMap (·.status?) with
  | nil => exact (pure ()).bind fun _ => set
  | cons => exact status_set

theorem setAccumulated {dst : Register} {op : Accumulate} {sat : Bool} {acc product : Expr} :
    (setAccumulated dst op sat acc product).Labelless :=
  temp_bind fun _ => temp_bind fun _ => status_set

theorem setAccumulatedU {dst : Register} {subtract sat : Bool} {acc product : Expr} :
    (setAccumulatedU dst subtract sat acc product).Labelless :=
  temp_bind fun _ => temp_bind fun _ => status_set

theorem setMerged {dst : Register} {acc? : Option Expr} {hi lo : Accumulate} {sat : Bool}
    {p1 p0 : Expr} : (setMerged dst acc? hi lo sat p1 p0).Labelless := by
  refine temp_bind fun _ => ?_
  cases acc? with
  | none => exact status_set
  | some acc => exact setAccumulated

theorem setSeparate {dst : Register} {acc? : Option Expr} {hi lo : Accumulate}
    {shape : ProductShape} {sat : Bool} {p1 p0 : Expr} :
    (setSeparate dst acc? hi lo shape sat p1 p0).Labelless :=
  temp_bind fun _ => temp_bind fun _ => status_set

theorem access (p : Place) : (access p).Labelless := by
  cases p with
  | absolute | based => exact pure _
  | postIncrement | preIncrement | bitReverse => exact temp_bind fun _ => pure _
  | circular =>
    exact temp_bind fun _ => temp_bind fun _ => temp_bind fun _ => temp_bind fun _ =>
      temp_bind fun _ => pure _

/-- The updates that follow an access use no labels. -/
theorem updates (p : Place) (supply : Supply) :
    Tricore.Unlabelled (Lift.access p supply).1.updates := by
  intro stmt hs
  cases p with
  | absolute | based => cases hs
  | postIncrement | preIncrement | bitReverse | circular => rw [List.mem_singleton.1 hs]; rfl

theorem access_bind {p : Place} {f : Addressed → Emit β}
    (hf : ∀ a, Tricore.Unlabelled a.updates → (f a).Labelless) :
    (Lift.access p >>= f).Labelless := fun supply =>
  (access p supply).bind (hf _ (updates p supply) _)

theorem floatFlags {flags : List Flag} {op : FloatCheck} {args : List Expr} :
    (floatFlags flags op args).Labelless := by
  refine bind (emitAll fun stmt hs => ?_) fun _ => setFlag
  obtain ⟨f, -, rfl⟩ := List.mem_map.1 hs
  rfl

end Labelless

end Emit

/-! ## Code with labels -/

/-- What the code of an instruction does with labels. It marks those from `n` up to `n'`, in order, and
no others. It continues only at these, or at a label that is known for one of the addresses. -/
structure HandlesLabels (known : Address → Option Label) (addrs : Address → Prop) (n n' : Nat)
    (code : List Stmt) : Prop where
  le : n ≤ n'
  marks : code.filterMap Stmt.mark? = Label.between n n'
  targets : ∀ stmt ∈ code, ∀ l ∈ stmt.targets,
    l ∈ Label.between n n' ∨ ∃ a, addrs a ∧ known a = some l

theorem filterMap_mark? {code : List Stmt} (h : Unlabelled code) :
    code.filterMap Stmt.mark? = [] := by
  refine List.filterMap_eq_nil_iff.2 fun stmt hs => ?_
  have hl := h stmt hs
  cases stmt with
  | mark => cases hl
  | _ => rfl

namespace HandlesLabels

variable {known : Address → Option Label} {addrs : Address → Prop} {n n' : Nat}
  {before code : List Stmt}

theorem unlabelled (h : Unlabelled code) : HandlesLabels known addrs n n code where
  le := Nat.le_refl n
  marks := by rw [filterMap_mark? h, Label.between_self]
  targets stmt hs l hl := by rw [h.targets hs] at hl; cases hl

/-- What comes first uses no labels. -/
theorem append (hb : Unlabelled before) (h : HandlesLabels known addrs n n' code) :
    HandlesLabels known addrs n n' (before ++ code) where
  le := h.le
  marks := by rw [List.filterMap_append, filterMap_mark? hb, List.nil_append, h.marks]
  targets stmt hs l hl := by
    rcases List.mem_append.1 hs with hs | hs
    · rw [hb.targets hs] at hl
      cases hl
    · exact h.targets stmt hs l hl

theorem jumpCode {target : Address} (ht : addrs target) :
    HandlesLabels known addrs n n (jumpCode known target) := by
  unfold Lift.jumpCode
  cases hl : known target with
  | none => exact unlabelled (by simp [Unlabelled, Stmt.usesLabel])
  | some l =>
    refine ⟨Nat.le_refl n, by simp [Stmt.mark?], ?_⟩
    simpa [Stmt.targets] using ⟨target, ht, hl⟩

/-- A two-way branch takes a label for each side that has none. -/
theorem branchCode {cond : Expr} {target next : Address} (ht : addrs target) (hn : addrs next) :
    HandlesLabels known addrs n
      (n + ((if (known target).isSome then 0 else 1) + if (known next).isSome then 0 else 1))
      (branchCode known n cond target next) := by
  unfold Lift.branchCode
  cases htaken : known target with
  | none =>
    cases hfall : known next with
    | none =>
      refine ⟨by simp, by simp [List.filterMap_cons, Stmt.mark?], ?_⟩
      simp [Stmt.targets]
    | some fall =>
      refine ⟨by simp, by simp [List.filterMap_cons, Stmt.mark?], ?_⟩
      simpa [Stmt.targets] using .inr ⟨next, hn, hfall⟩
  | some taken =>
    have hyes : ∃ a, addrs a ∧ known a = some taken := ⟨target, ht, htaken⟩
    cases hfall : known next with
    | none =>
      refine ⟨by simp, by simp [List.filterMap_cons, Stmt.mark?], ?_⟩
      simpa [Stmt.targets] using .inr hyes
    | some fall =>
      refine ⟨by simp, by simp [List.filterMap_cons, Stmt.mark?], ?_⟩
      simpa [Stmt.targets] using ⟨hyes, ⟨next, hn, hfall⟩⟩

theorem skipCode {cond : Expr} {body after : List Stmt} (hbody : Unlabelled body)
    (hafter : Unlabelled after) :
    HandlesLabels known addrs n (n + 2) (skipCode n cond body after) where
  le := Nat.le_add_right n 2
  marks := by
    simp [Lift.skipCode, List.filterMap_cons, Stmt.mark?, filterMap_mark? hbody,
      filterMap_mark? hafter]
  targets stmt hs l hl := by
    simp only [Lift.skipCode, List.mem_cons, List.mem_append] at hs
    rcases hs with rfl | rfl | hs | rfl | hs
    · simp only [Stmt.targets, List.mem_cons, List.not_mem_nil, or_false] at hl
      rcases hl with rfl | rfl <;> exact .inl (by simp)
    · cases hl
    · rw [hbody.targets hs] at hl; cases hl
    · cases hl
    · rw [hafter.targets hs] at hl; cases hl

end HandlesLabels

/-! ## Emissions and plans -/

section Careful

variable {α : Type} {addrs : Address → Prop}

/-- Whatever the supply, the emission handles labels well. -/
def Emit.Careful (addrs : Address → Prop) (e : Emit Unit) : Prop :=
  ∀ supply, HandlesLabels supply.labelAt? addrs supply.labels (e supply).2.2.labels (e supply).2.1

/-- If the plan can be made, it handles labels well. -/
def Careful (addrs : Address → Prop) (p : Plan) : Prop :=
  ∀ supply, (p supply).1 = .ok () →
    HandlesLabels supply.labelAt? addrs supply.labels (p supply).2.2.labels (p supply).2.1

namespace Emit

/-- An emission without labels leaves those of its supply as they are. -/
theorem Labelless.supply {x : Emit α} (h : x.Labelless) (supply : Supply) :
    (x supply).2.2.labels = supply.labels ∧ (x supply).2.2.labelAt? = supply.labelAt? := by
  have hsame := (h supply).relabel supply.labels supply.labelAt?
  exact ⟨congrArg (·.2.2.labels) hsame, congrArg (·.2.2.labelAt?) hsame⟩

theorem Labelless.careful {e : Emit Unit} (h : e.Labelless) : e.Careful addrs := fun supply => by
  rw [(h.supply supply).1]
  exact .unlabelled (h supply).stmts

namespace Careful

/-- What comes first uses no labels. -/
theorem bind {x : Emit α} {f : α → Emit Unit} (hx : x.Labelless)
    (hf : ∀ supply, (f (x supply).1).Careful addrs) : (x >>= f).Careful addrs := fun supply => by
  have hrest := hf supply (x supply).2.2
  rw [(hx.supply supply).1, (hx.supply supply).2] at hrest
  exact hrest.append (hx supply).stmts

theorem temp_bind {v : Expr} {f : Expr → Emit Unit} (hf : ∀ e, (f e).Careful addrs) :
    (temp v >>= f).Careful addrs := bind .temp fun _ => hf _

theorem set_bind {r : Register} {v : Expr} {f : Unit → Emit Unit}
    (hf : ∀ u, (f u).Careful addrs) : (set r v >>= f).Careful addrs := bind .set fun _ => hf _

theorem access_bind {p : Place} {f : Addressed → Emit Unit}
    (hf : ∀ a, Tricore.Unlabelled a.updates → (f a).Careful addrs) :
    (access p >>= f).Careful addrs :=
  bind (.access p) fun supply => hf _ (Labelless.updates p supply)

theorem jumpTo {target : Address} (ht : addrs target) : (jumpTo target).Careful addrs := by
  intro supply
  have hcode : Lift.jumpTo target supply = ((), jumpCode supply.labelAt? target, supply) := by
    unfold jumpCode
    cases hl : supply.labelAt? target <;> simp [Lift.jumpTo, Bind.bind, labelAt?, emit, hl]
  rw [hcode]
  exact .jumpCode ht

theorem branchTo {cond : Expr} {target next : Address} (ht : addrs target) (hn : addrs next) :
    (branchTo cond target next).Careful addrs := by
  intro supply
  have hlabels : (Lift.branchTo cond target next supply).2.2.labels = supply.labels +
      ((if (supply.labelAt? target).isSome then 0 else 1) +
        if (supply.labelAt? next).isSome then 0 else 1) := by
    cases htaken : supply.labelAt? target <;> cases hfall : supply.labelAt? next <;>
      simp [Lift.branchTo, Bind.bind, Pure.pure, labelAt?, newLabel, emit, mark, htaken, hfall]
  rw [(branchTo_eq cond target next supply).1, hlabels]
  exact .branchCode ht hn

/-- Statements that are skipped unless a condition holds, and statements after them. -/
theorem skip {cond : Expr} {body after : Emit Unit} (hbody : body.Labelless)
    (hafter : after.Labelless) :
    (do
      let yes ← newLabel
      let no ← newLabel
      emit (.branch cond yes no)
      mark yes
      body
      mark no
      after : Emit Unit).Careful addrs := by
  intro supply
  let taken : Supply := { supply with labels := supply.labels + 2 }
  have hlabels : (after (body taken).2.2).2.2.labels = supply.labels + 2 :=
    (hafter.supply _).1.trans (hbody.supply taken).1
  have hskip : HandlesLabels supply.labelAt? addrs supply.labels (supply.labels + 2)
      (skipCode supply.labels cond (body taken).2.1 (after (body taken).2.2).2.1) :=
    .skipCode (hbody taken).stmts (hafter (body taken).2.2).stmts
  rw [← hlabels] at hskip
  simpa [Bind.bind, newLabel, emit, mark, Lift.skipCode, taken] using hskip

end Careful

end Emit

theorem Careful.emitting {e : Emit Unit} (h : e.Careful addrs) : Careful addrs (emitting e) :=
  fun supply _ => h supply

theorem Careful.quiet {e : Emit Unit} (h : e.Labelless) : Careful addrs (Lift.emitting e) :=
  .emitting h.careful

theorem Careful.gives {Q : α → Prop} {x : Read α} {f : α → Plan} (hx : Gives x Q)
    (hf : ∀ v, Q v → Careful addrs (f v)) : Careful addrs (liftM x >>= f) := by
  cases x with
  | error e =>
    intro supply h
    cases h
  | ok v => exact hf v (hx v rfl)

/-- Reading an operand uses no labels. -/
theorem Careful.read {x : Read α} {f : α → Plan} (hf : ∀ v, Careful addrs (f v)) :
    Careful addrs (liftM x >>= f) := .gives .any fun v _ => hf v

end Careful

/-! ## All actions -/

/-- The addresses that an instruction may branch to: the next one, and targets among its operands. -/
def Source.Reaches (s : Source) (a : Address) : Prop := a = s.next ∨ .target a ∈ s.operands

variable {s : Source}

theorem gives_target (i : Nat) : Gives (s.target i) s.Reaches := by
  intro t h
  unfold Source.target Source.operand at h
  split at h
  · next o ho =>
    cases o with
    | target t' => cases h; exact .inr (List.mem_of_getElem? ho)
    | _ => cases h
  · cases h

theorem careful_shift (kind : ShiftKind) : Careful s.Reaches (Plan.shift kind s) := by
  refine .read fun _ => .quiet (.temp_bind fun _ => .temp_bind fun _ => ?_)
  cases kind with
  | logical => exact .set
  | arithmetic =>
    exact .temp_bind fun _ => .temp_bind fun _ => .temp_bind fun _ =>
      .bind .setFlag fun _ => .status_set
  | saturating => exact .temp_bind fun _ => .temp_bind fun _ => .temp_bind fun _ => .status_set

theorem careful_packed (op : LaneOp) (l : Lane) : Careful s.Reaches (Plan.packed op l s) := by
  cases op with
  | shift | shiftArithmetic =>
    exact .read fun _ => .quiet (.temp_bind fun _ => .temp_bind fun _ => .set)
  | abs | absSat => exact .read fun _ => .read fun _ => .quiet .lanes
  | _ => exact .read fun _ => .quiet .lanes

theorem careful_multiply (sign : Sign) (wide sat : Bool) :
    Careful s.Reaches (Plan.multiply sign wide sat s) := by
  refine .read fun _ => .quiet (.temp_bind fun _ => ?_)
  cases wide <;> exact .status_set

theorem careful_multiplyAdd (subtract : Bool) (sign : Sign) (wide sat : Bool) :
    Careful s.Reaches (Plan.multiplyAdd subtract sign wide sat s) := by
  refine .read fun _ => .read fun _ => .read fun _ => .read fun _ => .quiet (.temp_bind fun _ => ?_)
  cases wide with
  | false => exact .temp_bind fun _ => .status_set
  | true =>
    refine .temp_bind fun _ => ?_
    cases sign with
    | signed => exact .setAccumulated
    | unsigned => exact .setAccumulatedU

theorem careful_halfMultiply (halves : HalfPair) (hi lo : Accumulate) (shape : ProductShape)
    (sat : Bool) : Careful s.Reaches (Plan.halfMultiply halves hi lo shape sat s) := by
  refine .read fun _ => .read fun acc? => .read fun _ => .read fun _ => .read fun _ => .quiet ?_
  refine .bind ?_ fun _ => .temp_bind fun _ => .temp_bind fun _ => .temp_bind fun _ =>
    .temp_bind fun _ => ?_
  · cases acc? with
    | none => exact .pure _
    | some acc => exact .temp_bind fun _ => .pure _
  · cases shape with
    | merged => exact .setMerged
    | _ => exact .setSeparate

theorem careful_fractionMultiply (src : FractionSource) (wide : Bool) (acc : Accumulate)
    (round sat : Bool) : Careful s.Reaches (Plan.fractionMultiply src wide acc round sat s) := by
  refine .read fun _ => .read fun acc? => .read fun _ => .read fun _ => .read fun _ => .quiet ?_
  refine .temp_bind fun _ => .temp_bind fun _ => .temp_bind fun _ => ?_
  cases wide with
  | false => exact .temp_bind fun _ => .status_set
  | true =>
    cases acc? with
    | none => exact .status_set
    | some acc => exact .temp_bind fun _ => .setAccumulated

theorem careful_extract (sign : Sign) : Careful s.Reaches (Plan.extract sign s) := by
  refine .read fun _ => .read fun _ => .read fun x => ?_
  obtain ⟨pos, width⟩ := x
  cases pos with
  | dynamic => exact .quiet (.temp_bind fun _ => .set)
  | static =>
    cases width with
    | dynamic => exact .quiet (.temp_bind fun _ => .set)
    | static => exact .quiet .set

theorem careful_loadAddress : Careful s.Reaches (Plan.loadAddress s) :=
  .read fun _ => .read fun _ => .quiet (.access_bind fun _ _ => .set)

theorem careful_load (kind : Access) : Careful s.Reaches (Plan.load kind s) :=
  .read fun _ => .read fun _ => .quiet (.access_bind fun _ hu => .bind .set fun _ => .emitAll hu)

theorem careful_store (kind : Access) : Careful s.Reaches (Plan.store kind s) :=
  .read fun _ => .read fun _ => .quiet (.access_bind fun _ hu => .bind .store fun _ => .emitAll hu)

theorem careful_storeBit : Careful s.Reaches (Plan.storeBit s) :=
  .read fun _ => .read fun _ => .read fun _ =>
    .quiet (.access_bind fun _ hu => .bind .store fun _ => .emitAll hu)

theorem careful_loadModifyStore : Careful s.Reaches (Plan.loadModifyStore s) :=
  .read fun _ => .read fun _ => .quiet <| .access_bind fun _ hu => .temp_bind fun _ =>
    .bind .store fun _ => .emitAll hu

/-- A word is read, written back in part, and kept in a register. -/
theorem careful_swaps : Careful s.Reaches (Plan.swap s) ∧ Careful s.Reaches (Plan.swapMasked s) := by
  constructor <;>
    exact .read fun _ => .read fun _ => .quiet <| .access_bind fun _ hu => .temp_bind fun _ =>
      .temp_bind fun _ => .bind .store fun _ => .bind .set fun _ => .emitAll hu

theorem careful_compareSwap : Careful s.Reaches (Plan.compareSwap s) :=
  .read fun _ => .read fun _ => .emitting <| .access_bind fun _ hu => .temp_bind fun _ =>
    .temp_bind fun _ => .skip .store (.bind .set fun _ => .emitAll hu)

theorem careful_addressed (i : Intrinsic) (outputs : List Register) :
    Careful s.Reaches (Plan.addressed i outputs s) :=
  .read fun _ => .quiet (.access_bind fun _ hu => .bind .intrinsic fun _ => .emitAll hu)

theorem careful_callDirect {link : Address → Emit Unit} (hl : ∀ next, (link next).Labelless) :
    Careful s.Reaches (Plan.callDirect link s) :=
  .read fun _ => .quiet (.bind (hl _) fun _ => .emit rfl)

theorem careful_callThrough {link : Address → Emit Unit} (hl : ∀ next, (link next).Labelless) :
    Careful s.Reaches (Plan.callThrough link s) :=
  .read fun _ => .quiet (.temp_bind fun _ => .bind (hl _) fun _ => .emit rfl)

theorem careful_trapOn (f : Flag) : Careful s.Reaches (Plan.trapOn f) :=
  .emitting (.skip .intrinsic (.pure ()))

theorem careful_platform (i : Intrinsic) : Careful s.Reaches (Plan.platform i s) := by
  cases i with
  | restoreLowerContext => exact .quiet .intrinsic
  | _ => exact .read fun _ => .quiet .intrinsic

/-- Every plan handles labels well, whatever its operands are. -/
theorem plan_careful (a : Action) : Careful s.Reaches (plan s a) := by
  have hnext : s.Reaches s.next := .inl rfl
  cases a with
  | add | sub =>
    refine .read fun x => .quiet ?_
    split
    · exact .set
    · exact .wrapping
  | addSat | subSat | rsubSat => exact .read fun _ => .quiet .clamped
  | rsub => exact .read fun _ => .quiet .wrapping
  | addCarry | addExtended | subCarry | subExtended =>
    exact .read fun _ => .quiet <| .temp_bind fun _ => .temp_bind fun _ => .temp_bind fun _ =>
      .temp_bind fun _ => .temp_bind fun _ => .bind .setFlag fun _ => .status_set
  | addScaled | select | extractDouble | insertBit =>
    exact .read fun _ => .read fun _ => .read fun _ => .read fun _ => .quiet .set
  | addBitIndex | condMove | movePair | insertMask | bitLogic =>
    exact .read fun _ => .read fun _ => .read fun _ => .quiet .set
  | move => exact .read fun _ => .read fun _ => .quiet .set
  | compare | compareInto | logic | complement => exact .read fun _ => .quiet .set
  | saturate | count => exact .read fun _ => .quiet (.temp_bind fun _ => .set)
  | anyEqual => exact .read fun _ => .quiet (.temp_bind fun _ => .temp_bind fun _ => .set)
  | condArith =>
    exact .read fun _ => .quiet <| .temp_bind fun _ => .temp_bind fun _ => .temp_bind fun _ =>
      .temp_bind fun _ => .status_set
  | packed op l => exact careful_packed op l
  | shift kind => exact careful_shift kind
  | multiply sign wide sat => exact careful_multiply sign wide sat
  | multiplyAdd subtract sign wide sat => exact careful_multiplyAdd subtract sign wide sat
  | halfMultiply halves hi lo shape sat => exact careful_halfMultiply halves hi lo shape sat
  | fractionMultiply src wide acc round sat => exact careful_fractionMultiply src wide acc round sat
  | divide =>
    exact .read fun _ => .read fun _ => .read fun _ => .quiet <| .temp_bind fun _ =>
      .temp_bind fun _ => .temp_bind fun _ => .bind .overflowStatus fun _ => .set
  | divideInit =>
    exact .read fun _ => .read fun _ => .read fun _ => .quiet <| .temp_bind fun _ =>
      .temp_bind fun _ => .bind .overflowStatus fun _ => .set
  | extract sign => exact careful_extract sign
  | insert =>
    exact .read fun _ => .read fun _ => .read fun _ => .read fun _ =>
      .quiet (.temp_bind fun _ => .set)
  | loadAddress => exact careful_loadAddress
  | load kind => exact careful_load kind
  | store kind => exact careful_store kind
  | storeBit => exact careful_storeBit
  | loadModifyStore => exact careful_loadModifyStore
  | swap => exact careful_swaps.1
  | swapMasked => exact careful_swaps.2
  | compareSwap => exact careful_compareSwap
  | context i => exact careful_addressed i (contextOutputs i)
  | cache i => exact careful_addressed i []
  | jump | loopForever => exact .gives (gives_target 0) fun _ ht => .emitting (.jumpTo ht)
  | jumpIndirect => exact .read fun _ => .quiet (.temp_bind fun _ => .emit rfl)
  | jumpLink => exact careful_callDirect fun _ => .set
  | jumpLinkIndirect => exact careful_callThrough fun _ => .set
  | call => exact careful_callDirect fun _ => .bind .intrinsic fun _ => .set
  | callIndirect => exact careful_callThrough fun _ => .bind .intrinsic fun _ => .set
  | fastCall => exact careful_callDirect fun _ => .bind .set fun _ => .bind .store fun _ => .set
  | fastCallIndirect =>
    exact careful_callThrough fun _ => .bind .set fun _ => .bind .store fun _ => .set
  | ret | retException | retMonitor =>
    exact .quiet (.temp_bind fun _ => .bind .intrinsic fun _ => .emit rfl)
  | fastRet =>
    exact .quiet (.temp_bind fun _ => .bind .set fun _ => .bind .set fun _ => .emit rfl)
  | branch =>
    exact .read fun _ => .read fun _ => .gives (gives_target _) fun _ ht =>
      .emitting (.branchTo ht hnext)
  | branchBit =>
    exact .read fun _ => .read fun _ => .gives (gives_target 2) fun _ ht =>
      .emitting (.branchTo ht hnext)
  | branchStep =>
    exact .read fun _ => .read fun _ => .gives (gives_target 2) fun _ ht => .emitting <|
      .temp_bind fun _ => .set_bind fun _ => .branchTo ht hnext
  | loop =>
    exact .read fun _ => .gives (gives_target 1) fun _ ht => .emitting <|
      .temp_bind fun _ => .set_bind fun _ => .branchTo ht hnext
  | platform i => exact careful_platform i
  | nop => exact .quiet (.emit rfl)
  | trapOn f => exact careful_trapOn f
  | readCsfr | writeCsfr | dataIntrinsic => exact .read fun _ => .read fun _ => .quiet .intrinsic
  | float =>
    exact .read fun _ => .read fun _ => .read fun _ => .quiet <| .temp_bind fun _ =>
      .temp_bind fun _ => .bind .floatFlags fun _ => .set
  | floatMultiplyAdd =>
    exact .read fun _ => .read fun _ => .read fun _ => .read fun _ => .quiet <| .temp_bind fun _ =>
      .temp_bind fun _ => .temp_bind fun _ => .bind .floatFlags fun _ => .set
  | floatCompare =>
    exact .read fun _ => .read fun _ => .read fun _ => .quiet <| .temp_bind fun _ =>
      .temp_bind fun _ => .bind .floatFlags fun _ => .set
  | floatConvert =>
    refine .read fun _ => .read fun _ => .read fun n? => .quiet <| .temp_bind fun _ =>
      .bind ?_ fun _ => .bind .floatFlags fun _ => .set
    cases n? with
    | none => exact .pure _
    | some n => exact .temp
  | updateFlags =>
    refine .read fun _ => .quiet <| .temp_bind fun _ => .emitAll fun stmt hs => ?_
    obtain ⟨f, -, rfl⟩ := List.mem_map.1 hs
    rfl

end Lift

/-! ## Lifts -/

theorem Opcode.single_target : ∀ g ∈ table, ∀ r ∈ g.rows,
    (r.operands.map OperandKind.shape).count Shape.target ≤ 1 := by decide +kernel

namespace Instruction

variable {i : Instruction} {t t' : Trace}

/-- A decoded instruction has one target at most. -/
theorem target?_of_mem {isa : Isa} {bytes : List Byte} {addr a : Address}
    (h : decode isa bytes addr = .ok i) (ha : .target a ∈ i.operands) : i.target? = some a := by
  obtain ⟨e, -, -, -, g, hg, hr, hos⟩ := of_decode h
  have hcount := Opcode.single_target g hg _ hr
  rw [← (shapes_of_mapM hos).1] at hcount
  obtain ⟨before, after, hsplit⟩ := List.append_of_mem ha
  rw [hsplit, List.map_append, List.map_cons, List.count_append, Operand.shape,
    List.count_cons_self] at hcount
  have hnone : Shape.target ∉ before.map (·.shape) := List.count_eq_zero.1 (by omega)
  rw [target?, hsplit, List.findSome?_append, List.findSome?_eq_none_iff.2]
  · rfl
  · intro o ho
    cases o with
    | target b => exact absurd (List.mem_map.2 ⟨Operand.target b, ho, rfl⟩) hnone
    | _ => rfl

/-- Lifting changes nothing of a trace but its statements and the number of labels taken. -/
theorem liftInto_keeps (i : Instruction) (t : Trace) :
    t.nextLabel ≤ (i.liftInto t).2.nextLabel ∧ (i.liftInto t).2.bound = t.bound := by
  have hcareful := Lift.plan_careful (s := .of i) i.row.action (.of t)
  have hatomic := Lift.plan_atomic (s := .of i) i.row.action (.of t)
  unfold liftInto plan
  split
  · next stmts supply hp =>
    rw [hp] at hcareful
    exact ⟨(hcareful rfl).le, rfl⟩
  · next e stmts supply hp =>
    rw [hp] at hatomic
    rw [show supply = .of t from hatomic e rfl]
    exact ⟨Nat.le_refl _, rfl⟩

/-- The labels that lifting an instruction into a trace takes, in order. -/
def taken (i : Instruction) (t : Trace) : List Label :=
  Label.between t.nextLabel (i.liftInto t).2.nextLabel

/-- An instruction that is lifted marks the labels that it takes. It continues at these only, or at
the label of the address after it or of a target. -/
theorem marks_of_lift (h : i.lift t = .ok t') :
    ∃ code, t'.stmts = t.stmts ++ code ∧ code.filterMap Stmt.mark? = i.taken t ∧
      ∀ stmt ∈ code, ∀ l ∈ stmt.targets,
        l ∈ i.taken t ∨ ∃ a, (a = i.next ∨ .target a ∈ i.operands) ∧ t.labelAt? a = some l := by
  have hcareful := Lift.plan_careful (s := .of i) i.row.action (.of t)
  unfold taken
  unfold lift at h
  split at h
  · next t₁ hlift =>
    cases h
    simp only [hlift]
    unfold liftInto plan at hlift
    split at hlift
    · next stmts supply hp =>
      cases hlift
      rw [hp] at hcareful
      obtain ⟨-, hmarks, htargets⟩ := hcareful rfl
      refine ⟨stmts, rfl, hmarks, fun stmt hs l hl => ?_⟩
      rcases htargets stmt hs l hl with hmem | ⟨a, hnext | hop, hl⟩
      · exact .inl hmem
      · exact .inr ⟨a, .inl hnext, hl⟩
      · exact .inr ⟨a, .inr (List.mem_of_mem_filter hop), hl⟩
    · cases hlift
  · cases h

end Instruction

end Tricore
