import Mathlib
import Tricore.Proofs.Checked
import Tricore.Proofs.Resources

/-!
# Arithmetic effects in range

The plans of arithmetic actions, with the operations that have a range checked where they occur: the
places of top bits and lanes, and the bounds that results are clamped to. Work is done in
`OptionT Lift.Emit` and `OptionT Lift.Planning`; shifts by a literal are left as they are. Each
definition has an equation that says that it always has a result, and that the result is that of the
plan without checks. Clamping to 64 bits would leave its range, and the equations use that no plan
does so.
-/

namespace Tricore

namespace Lift

instance : LawfulMonad Emit := LawfulMonad.mk' _
  (fun x => funext fun supply => by
    show (_, (x supply).2.1 ++ [], _) = x supply
    rw [List.append_nil]
    rfl)
  (fun _ _ => rfl)
  (fun x f g => funext fun supply => by
    simp [bind, List.append_assoc])

instance : LawfulMonad Planning := LawfulMonad.mk' _
  (fun x => funext fun supply => by
    show (match x supply with
      | (.ok a, first, supply) => (.ok a, first ++ [], supply)
      | (.error e, stmts, supply) => (.error e, stmts, supply)) = x supply
    rcases x supply with ⟨_ | _, _, _⟩ <;> simp)
  (fun _ _ => rfl)
  (fun x f g => funext fun supply => by
    simp only [bind]
    rcases x supply with ⟨_ | a, _, supply'⟩
    · rfl
    · simp only
      rcases f a supply' with ⟨_ | b, _, _⟩ <;> simp [List.append_assoc])

end Lift

namespace Checked

open Lift (Source Amount Addressed Gives)

/-! ## Work with a range -/

section Work

variable {α β : Type} {m : Type → Type} [Monad m]

/-- The result of an operation that has a range. -/
def within (x : Option α) : OptionT m α := OptionT.mk (pure x)

@[simp]
theorem within_some (a : α) : (within (some a) : OptionT m α) = pure a := rfl

/-- Emit with operations that have a range. -/
def emitting (e : OptionT Lift.Emit Unit) : OptionT Lift.Planning Unit :=
  OptionT.mk fun supply =>
    let (result, stmts, supply) := e.run supply
    (.ok result, stmts, supply)

theorem emitting_eq {e : OptionT Lift.Emit Unit} {e' : Lift.Emit Unit} (h : e = liftM e') :
    emitting e = liftM (Lift.emitting e') := h ▸ rfl

/-- Reading operands has no operation with a range. -/
theorem read_eq {Q : α → Prop} {x : Lift.Read α} {f : α → OptionT Lift.Planning Unit}
    {g : α → Lift.Plan} (hx : Gives x Q) (hf : ∀ v, Q v → f v = liftM (g v)) :
    (liftM x >>= f) = (liftM (liftM x >>= g : Lift.Plan) : OptionT Lift.Planning Unit) := by
  cases x with
  | error e => rfl
  | ok v =>
    have hv := hf v (hx v rfl)
    exact hv

theorem read_ok_bind (a : α) (f : α → OptionT Lift.Planning β) :
    (liftM (.ok a : Lift.Read α) >>= f) = f a := rfl

theorem liftM_mapM [LawfulMonad m] {f : β → OptionT m α} {g : β → m α} {bs : List β}
    (h : ∀ b ∈ bs, f b = liftM (g b)) : bs.mapM f = liftM (bs.mapM g) := by
  induction bs with
  | nil => simp
  | cons b bs ih =>
    rw [List.mapM_cons, List.mapM_cons, h b List.mem_cons_self,
      ih fun c hc => h c (List.mem_cons_of_mem b hc)]
    simp

end Work

/-! ## Idioms -/

def advanced (e : Expr) : Option Expr := do
  let w := e.width
  let top ← sub (← mul 32 w.bytes 8) 1
  return .bit (.xor w e (.shl w e (.const w 1))) top

@[simp]
theorem advanced_eq (e : Expr) : advanced e = some e.advanced := by
  unfold advanced Expr.advanced
  cases e.width <;> rfl

/-- Least and greatest number of a width, as signed 64-bit numbers. -/
def limits (s : Sign) (w : Width) : Option (Int × Int) :=
  match s with
  | .signed => do
    let half ← shl (1 : Value) (← sub w.bits 1)
    return ((← neg half).toInt, (← ssub half 1).toInt)
  | .unsigned => do
    let count ← shl (1 : Value) w.bits
    return (0, (← ssub count 1).toInt)

def saturate (wide : Expr) (w : Width) (s : Sign) : Option Expr := do
  let (least, greatest) ← limits s w
  let min := Expr.const .double (.ofInt 64 least)
  let max := Expr.const .double (.ofInt 64 greatest)
  let below := Expr.select .double (.compare .sgt .double wide max) max wide
  return .low w (.select .double (.compare .slt .double wide min) min below)

/-- The bounds of 64 bits have no place in a signed 64-bit number, or cannot be shifted to. -/
theorem saturate_eq (wide : Expr) {w : Width} (s : Sign) (h : w ≠ .double) :
    saturate wide w s = some (wide.saturate w s) := by
  cases w with
  | double => exact absurd rfl h
  | _ => cases s <;> rfl

@[simp]
theorem saturate_word (wide : Expr) (s : Sign) :
    saturate wide .word s = some (wide.saturate .word s) := saturate_eq wide s nofun

@[simp]
theorem saturate_lane (wide : Expr) (l : Lane) (s : Sign) :
    saturate wide l.width s = some (wide.saturate l.width s) :=
  saturate_eq wide s (by cases l <;> decide)

def lane (e : Expr) (l : Lane) (i : Nat) : Option Expr :=
  if l.width = e.width then some e
  else do
    let shift ← mul 32 i l.bits
    return if shift = 0 then .low l.width e
      else .low l.width (.lsr .word e (.const .word (.ofNat 64 shift)))

def placed (l : Lane) (i : Nat) (part : Expr) : Option Expr := do
  let shift ← mul 32 i l.bits
  return if shift = 0 then part.resize .word
    else .shl .word (part.resize .word) (.const .word (.ofNat 64 shift))

def pack (l : Lane) (parts : List Expr) : Option Expr := do
  match ← (parts.mapIdx (placed l)).mapM id with
  | [] => return .const .word 0
  | first :: rest => return rest.foldl (.or .word) first

theorem lane_shift_lt (l : Lane) {i : Nat} (h : i < 4) : i * l.bits < 2 ^ 32 := by
  have hbits : l.bits ≤ 32 := by cases l <;> decide
  calc i * l.bits ≤ 4 * 32 := Nat.mul_le_mul h.le hbits
    _ < 2 ^ 32 := by decide

theorem lane_eq (e : Expr) (l : Lane) {i : Nat} (h : i < 4) : lane e l i = some (e.lane l i) := by
  unfold lane Expr.lane
  split
  · rfl
  · simp only [mul_eq (lane_shift_lt l h), Option.bind_eq_bind, Option.bind_some, Option.pure_def]

theorem pack_eq (l : Lane) {parts : List Expr} (h : parts.length ≤ 4) :
    pack l parts = some (.pack l parts) := by
  have hplaced : parts.mapIdx (placed l) = (parts.mapIdx (Expr.placed l)).map some := by
    refine List.ext_getElem (by simp) fun i hi _ => ?_
    have hlt : i < 4 := by simp at hi; omega
    simp [placed, Expr.placed, mul_eq (lane_shift_lt l hlt)]
  have hall : ((parts.mapIdx (Expr.placed l)).map some).mapM id =
      some (parts.mapIdx (Expr.placed l)) := by
    rw [List.mapM_map]
    exact (List.mapM_pure (m := Option) (f := id)).trans (by simp)
  unfold pack Expr.pack
  rw [hplaced, hall]
  cases parts.mapIdx (Expr.placed l) <;> rfl

/-! ## Sums and differences -/

def wrapping (dst : Register) (op : BinOp) (lhs rhs : Expr) : OptionT Lift.Emit Unit := do
  let wide ← Lift.temp (.binary op .double (.sext .double lhs) (.sext .double rhs))
  let result ← Lift.temp (.low .word wide)
  Lift.status (wide.overflow .word .signed) (← within (advanced result))
  Lift.set dst result

@[simp]
theorem wrapping_eq (dst : Register) (op : BinOp) (lhs rhs : Expr) :
    wrapping dst op lhs rhs = liftM (Lift.wrapping dst op lhs rhs) := by
  simp [wrapping, Lift.wrapping]

def clamped (s : Sign) (dst : Register) (op : BinOp) (lhs rhs : Expr) :
    OptionT Lift.Emit Unit := do
  let wide ← Lift.temp (.binary op .double (.extend s .double lhs) (.extend s .double rhs))
  Lift.status (wide.overflow .word s) (← within (advanced (.low .word wide)))
  Lift.set dst (← within (saturate wide .word s))

@[simp]
theorem clamped_eq (s : Sign) (dst : Register) (op : BinOp) (lhs rhs : Expr) :
    clamped s dst op lhs rhs = liftM (Lift.clamped s dst op lhs rhs) := by
  simp [clamped, Lift.clamped]

variable (s : Source)

def addSub (op : BinOp) : OptionT Lift.Planning Unit := do
  let (dst, lhs, rhs) ← s.binary
  emitting <|
    if dst.isAddress then Lift.set dst (.binary op .word lhs rhs) else wrapping dst op lhs rhs

theorem addSub_eq (op : BinOp) : addSub s op = liftM (Lift.Plan.addSub op s) :=
  read_eq .any fun _ _ => emitting_eq (by split <;> simp)

def addSubSat (op : BinOp) (sign : Sign) : OptionT Lift.Planning Unit := do
  let (dst, lhs, rhs) ← s.binary
  emitting <| clamped sign dst op lhs rhs

theorem addSubSat_eq (op : BinOp) (sign : Sign) :
    addSubSat s op sign = liftM (Lift.Plan.addSubSat op sign s) :=
  read_eq .any fun _ _ => emitting_eq (clamped_eq ..)

def carry (subtract useCarry : Bool) : OptionT Lift.Planning Unit := do
  let (dst, lhs, rhs) ← s.binary
  let carryIn : Expr :=
    if useCarry then .zext .double (.flag .c)
    else .const .double (if subtract then 1 else 0)
  emitting do
    let lhs ← Lift.temp lhs
    let rhs ← Lift.temp (if subtract then .not .word rhs else rhs)
    let unsigned ← Lift.temp (.add .double
      (.add .double (.zext .double lhs) (.zext .double rhs)) carryIn)
    let signed ← Lift.temp (.add .double
      (.add .double (.sext .double lhs) (.sext .double rhs)) carryIn)
    let result ← Lift.temp (.low .word unsigned)
    Lift.setFlag .c (unsigned.bit 32)
    Lift.status (signed.overflow .word .signed) (← within (advanced result))
    Lift.set dst result

theorem carry_eq (subtract useCarry : Bool) :
    carry s subtract useCarry = liftM (Lift.Plan.carry subtract useCarry s) :=
  read_eq .any fun _ _ => emitting_eq (by simp)

def rsub : OptionT Lift.Planning Unit := do
  let (dst, lhs, rhs) ← Lift.Plan.reversed s
  emitting <| wrapping dst .sub lhs rhs

theorem rsub_eq : rsub s = liftM (Lift.Plan.rsub s) :=
  read_eq .any fun _ _ => emitting_eq (wrapping_eq ..)

def rsubSat (sign : Sign) : OptionT Lift.Planning Unit := do
  let (dst, lhs, rhs) ← Lift.Plan.reversed s
  emitting <| clamped sign dst .sub lhs rhs

theorem rsubSat_eq (sign : Sign) : rsubSat s sign = liftM (Lift.Plan.rsubSat sign s) :=
  read_eq .any fun _ _ => emitting_eq (clamped_eq ..)

def saturated (l : Lane) (sign : Sign) : OptionT Lift.Planning Unit := do
  let (dst, src) ← s.unary
  emitting do
    let wide ← Lift.temp (.extend sign .double src)
    Lift.set dst (.extend sign .word (← within (saturate wide l.width sign)))

theorem saturated_eq (l : Lane) (sign : Sign) :
    saturated s l sign = liftM (Lift.Plan.saturate l sign s) :=
  read_eq .any fun _ _ => emitting_eq (by simp)

def condArith (subtract negate : Bool) : OptionT Lift.Planning Unit := do
  let (dst, cond, lhs, rhs) ←
    (match s.arity with
    | 4 => return (← s.reg 0, ← s.value 1, ← s.value 2, ← s.value 3)
    | 3 => return (← s.reg 0, ← s.value 1, ← s.value 0, ← s.value 2)
    | n => s.bad _ n : Lift.Read (Register × Expr × Expr × Expr))
  emitting do
    let taken := Expr.low .byte (← Lift.temp (Lift.condition negate cond))
    let lhs ← Lift.temp lhs
    let wide ← Lift.temp (.binary (if subtract then .sub else .add) .double
      (.sext .double lhs) (.sext .double rhs))
    let result ← Lift.temp (.low .word wide)
    Lift.status (.select .byte taken (wide.overflow .word .signed) (.flag .v))
      (.select .byte taken (← within (advanced result)) (.flag .av))
    Lift.set dst (.select .word taken result lhs)

theorem condArith_eq (subtract negate : Bool) :
    condArith s subtract negate = liftM (Lift.Plan.condArith subtract negate s) := by
  unfold condArith Lift.Plan.condArith
  exact read_eq .any fun _ _ => emitting_eq (by simp)

/-! ## Shifts -/

def shift (kind : ShiftKind) : OptionT Lift.Planning Unit := do
  let (dst, src, count) ← s.binary
  emitting do
    let src ← Lift.temp src
    let count ← Lift.temp (Lift.shiftCount 26 count)
    let left := Expr.compare .sge .word count (.const .word 0)
    let rightBy := Expr.neg .word count
    let shl := Expr.shl .word src count
    let asr := Expr.asr .word src rightBy
    match kind with
    | .logical => Lift.set dst (.select .word left shl (.lsr .word src rightBy))
    | .arithmetic =>
      let left ← Lift.temp left
      let wide ← Lift.temp (.shl .double (.sext .double src) count)
      let shiftedOut := Expr.compare .ne .word
        (.lsr .word src (.sub .word (.const .word 32) count)) (.const .word 0)
      let mask := Expr.sub .word (.shl .word (.const .word 1) rightBy) (.const .word 1)
      let dropped := Expr.compare .ne .word (.and .word src mask) (.const .word 0)
      let result ← Lift.temp (.select .word left shl asr)
      Lift.setFlag .c (.select .byte left shiftedOut dropped)
      Lift.status (.and .byte (.low .byte left) (wide.overflow .word .signed))
        (← within (advanced result))
      Lift.set dst result
    | .saturating =>
      let left ← Lift.temp left
      let wide ← Lift.temp (.shl .double (.sext .double src) count)
      let result ← Lift.temp
        (.select .word left (← within (saturate wide .word .signed)) asr)
      Lift.status (.and .byte (.low .byte left) (wide.overflow .word .signed))
        (← within (advanced result))
      Lift.set dst result

theorem shift_eq (kind : ShiftKind) : shift s kind = liftM (Lift.Plan.shift kind s) :=
  read_eq .any fun _ _ => emitting_eq (by cases kind <;> simp)

def halfShift (right : BinOp) : OptionT Lift.Planning Unit := do
  let (dst, src, count) ← s.binary
  emitting do
    let src ← Lift.temp src
    let count ← Lift.temp (Lift.shiftCount 27 count)
    let left := Expr.compare .sge .word count (.const .word 0)
    let rightBy := Expr.low .half (.neg .word count)
    let leftBy := Expr.low .half count
    let shifted (i : Nat) : Option Expr := do
      let half ← lane src .half i
      return Expr.select .half left (.shl .half half leftBy) (.binary right .half half rightBy)
    Lift.set dst (← within (pack .half [← within (shifted 0), ← within (shifted 1)]))

theorem halfShift_eq (right : BinOp) : halfShift s right = liftM (Lift.Plan.halfShift right s) :=
  read_eq .any fun _ _ => emitting_eq (by simp [lane_eq, pack_eq])

/-! ## Lanes -/

def exactLane (w : Width) (s : Sign) (sat : Bool) (wide : Expr) :
    OptionT Lift.Emit Lift.LaneResult := do
  let wide ← Lift.temp wide
  let raw := Expr.low w wide
  return {
    value := ← if sat then within (saturate wide w s) else pure raw
    status? := some (wide.overflow w s, ← within (advanced raw)) }

theorem exactLane_eq (l : Lane) (s : Sign) (sat : Bool) (wide : Expr) :
    exactLane l.width s sat wide = liftM (Lift.exactLane l.width s sat wide) := by
  cases sat <;> simp [exactLane, Lift.exactLane]

def laneResult (op : LaneOp) (w : Width) (a b : Expr) : OptionT Lift.Emit Lift.LaneResult :=
  let difference := Expr.sub .double (.sext .double a) (.sext .double b)
  match op with
  | .add => exactLane w .signed false (.add .double (.sext .double a) (.sext .double b))
  | .addSat s => exactLane w s true (.add .double (.extend s .double a) (.extend s .double b))
  | .sub => exactLane w .signed false difference
  | .subSat s => exactLane w s true (.sub .double (.extend s .double a) (.extend s .double b))
  | .abs => exactLane w .signed false (Lift.magnitude (.sext .double a))
  | .absSat => exactLane w .signed true (Lift.magnitude (.sext .double a))
  | .absDiff => exactLane w .signed false (Lift.magnitude difference)
  | .absDiffSat => exactLane w .signed true (Lift.magnitude difference)
  -- The others neither overflow nor clamp.
  | op => liftM (Lift.laneResult op w a b)

theorem laneResult_eq (op : LaneOp) (l : Lane) (a b : Expr) :
    laneResult op l.width a b = liftM (Lift.laneResult op l.width a b) := by
  cases op with
  | add | addSat | sub | subSat | abs | absSat | absDiff | absDiffSat => exact exactLane_eq ..
  | _ => rfl

def lanes (op : LaneOp) (l : Lane) (dst : Register) (a b : Expr) : OptionT Lift.Emit Unit := do
  let a ← Lift.temp a
  let b ← Lift.temp b
  let parts ← (List.range l.count).mapM fun i => do
    laneResult op l.width (← within (lane a l i)) (← within (lane b l i))
  let result ← Lift.temp (← within (pack l (parts.map (·.value))))
  match parts.filterMap (·.status?) with
  | [] => pure ()
  | flags => Lift.status (.any (flags.map (·.1))) (.any (flags.map (·.2)))
  Lift.set dst result

theorem liftM_bind_apply {α β : Type} (x : Lift.Emit α) (f : α → OptionT Lift.Emit β)
    (supply : Lift.Supply) :
    (liftM x >>= f : OptionT Lift.Emit β).run supply =
      (((f (x supply).1).run (x supply).2.2).1,
        (x supply).2.1 ++ ((f (x supply).1).run (x supply).2.2).2.1,
        ((f (x supply).1).run (x supply).2.2).2.2) := by
  show (_, ((x supply).2.1 ++ []) ++ _, _) = _
  rw [List.append_nil]
  rfl

/-- What follows an emission may use what is known of its value. -/
theorem bind_eq {α β : Type} {Q : α → Prop} {x : Lift.Emit α} {f : α → OptionT Lift.Emit β}
    {g : α → Lift.Emit β} (hx : ∀ supply, Q (x supply).1) (hf : ∀ v, Q v → f v = liftM (g v)) :
    (liftM x >>= f) = (liftM (x >>= g) : OptionT Lift.Emit β) := by
  rw [liftM_bind]
  refine OptionT.ext (funext fun supply => ?_)
  rw [liftM_bind_apply, liftM_bind_apply, hf _ (hx supply)]

theorem length_mapM {α β : Type} (g : β → Lift.Emit α) (bs : List β) (supply : Lift.Supply) :
    (bs.mapM g supply).1.length = bs.length := by
  induction bs generalizing supply with
  | nil => rfl
  | cons b bs ih =>
    rw [List.mapM_cons]
    exact congrArg (· + 1) (ih (g b supply).2.2)

theorem lanes_eq (op : LaneOp) (l : Lane) (dst : Register) (a b : Expr) :
    lanes op l dst a b = liftM (Lift.Plan.lanes op l dst a b) := by
  have hcount : l.count ≤ 4 := by cases l <;> decide
  refine bind_eq (Q := fun _ => True) (fun _ => trivial) fun a _ =>
    bind_eq (Q := fun _ => True) (fun _ => trivial) fun b _ => ?_
  rw [liftM_mapM (g := fun i => Lift.laneResult op l.width (a.lane l i) (b.lane l i))]
  · refine bind_eq (Q := fun parts => parts.length = (List.range l.count).length)
      (length_mapM _ _) fun parts hparts => ?_
    have hlen : (parts.map (·.value)).length ≤ 4 := by simpa [hparts] using hcount
    simp only [pack_eq l hlen, within_some, pure_bind]
    cases parts.filterMap (·.status?) <;> simp
  · intro i hi
    have hi : i < 4 := (List.mem_range.1 hi).trans_le hcount
    simp [lane_eq _ l hi, laneResult_eq]

def packed (op : LaneOp) (l : Lane) : OptionT Lift.Planning Unit := do
  match op with
  | .shift => halfShift s .lsr
  | .shiftArithmetic => halfShift s .asr
  | .abs | .absSat =>
    let dst ← s.reg 0
    let a ← s.value 1
    emitting <| lanes op l dst a (.const .word 0)
  | _ =>
    let (dst, a, b) ← s.binary
    emitting <| lanes op l dst a b

theorem packed_eq (op : LaneOp) (l : Lane) : packed s op l = liftM (Lift.Plan.packed op l s) := by
  cases op with
  | shift | shiftArithmetic => exact halfShift_eq ..
  | abs | absSat => exact read_eq .any fun _ _ => read_eq .any fun _ _ => emitting_eq (lanes_eq ..)
  | _ => exact read_eq .any fun _ _ => emitting_eq (lanes_eq ..)

theorem mapM_eq_map {α β : Type} {f : α → Option β} {g : α → β} {as : List α}
    (h : ∀ a ∈ as, f a = some (g a)) : as.mapM f = some (as.map g) := by
  induction as with
  | nil => rfl
  | cons a as ih =>
    simp [List.mapM_cons, h a List.mem_cons_self, ih fun b hb => h b (List.mem_cons_of_mem a hb)]

/-- Each lane of a word, made with the number of the lane. -/
theorem lanes_mapM (l : Lane) {f : Nat → Option Expr} {g : Nat → Expr}
    (h : ∀ i < 4, f i = some (g i)) :
    (List.range l.count).mapM f = some ((List.range l.count).map g) :=
  mapM_eq_map fun i hi => h i ((List.mem_range.1 hi).trans_le (by cases l <;> decide))

def anyEqual (l : Lane) : OptionT Lift.Planning Unit := do
  let (dst, a, b) ← s.binary
  emitting do
    let a ← Lift.temp a
    let b ← Lift.temp b
    let hits ← within <| (List.range l.count).mapM fun i => do
      return Expr.compare .eq l.width (← lane a l i) (← lane b l i)
    Lift.set dst (.zext .word (.any hits))

theorem anyEqual_eq (l : Lane) : anyEqual s l = liftM (Lift.Plan.anyEqual l s) := by
  refine read_eq .any fun x _ => emitting_eq ?_
  refine bind_eq (Q := fun _ => True) (fun _ => trivial) fun a _ =>
    bind_eq (Q := fun _ => True) (fun _ => trivial) fun b _ => ?_
  rw [lanes_mapM l fun i hi => by rw [lane_eq a l hi, lane_eq b l hi]; rfl]
  rfl

def count (kind : CountKind) (l : Lane) : OptionT Lift.Planning Unit := do
  let (dst, src) ← s.unary
  emitting do
    let src ← Lift.temp src
    let parts ← within <| (List.range l.count).mapM fun i => do
      return Lift.Plan.counted kind l.width (← lane src l i)
    Lift.set dst (← within (pack l parts))

theorem count_eq (kind : CountKind) (l : Lane) :
    count s kind l = liftM (Lift.Plan.count kind l s) := by
  refine read_eq .any fun x _ => emitting_eq ?_
  refine bind_eq (Q := fun _ => True) (fun _ => trivial) fun src _ => ?_
  rw [lanes_mapM l fun i hi => by rw [lane_eq src l hi]; rfl]
  simp only [within_some, pure_bind]
  rw [pack_eq l (by cases l <;> simp [Lane.count])]
  rfl

/-! ## Products -/

def setWord (dst : Register) (s : Sign) (sat : Bool) (sum : Expr) : OptionT Lift.Emit Unit := do
  Lift.status (sum.overflow .word s) (← within (advanced (.low .word sum)))
  Lift.set dst (← if sat then within (saturate sum .word s) else pure (.low .word sum))

@[simp]
theorem setWord_eq (dst : Register) (s : Sign) (sat : Bool) (sum : Expr) :
    setWord dst s sat sum = liftM (Lift.setWord dst s sat sum) := by
  cases sat <;> simp [setWord, Lift.setWord]

def setProduct (dst : Register) (product : Expr) : OptionT Lift.Emit Unit := do
  Lift.status (.const .byte 0) (← within (advanced product))
  Lift.set dst product

@[simp]
theorem setProduct_eq (dst : Register) (product : Expr) :
    setProduct dst product = liftM (Lift.setProduct dst product) := by
  simp [setProduct, Lift.setProduct]

def setAccumulated (dst : Register) (op : Accumulate) (sat : Bool) (acc product : Expr) :
    OptionT Lift.Emit Unit := do
  let result ← Lift.temp (Lift.accumulated op acc product)
  let v := Expr.low .byte (← Lift.temp (Lift.signOverflow (op = .sub) acc product result))
  Lift.status v (← within (advanced result))
  Lift.set dst (if sat then Lift.clampedToward v acc result else result)

@[simp]
theorem setAccumulated_eq (dst : Register) (op : Accumulate) (sat : Bool) (acc product : Expr) :
    setAccumulated dst op sat acc product =
      liftM (Lift.setAccumulated dst op sat acc product) := by
  simp [setAccumulated, Lift.setAccumulated]

def setAccumulatedU (dst : Register) (subtract sat : Bool) (acc product : Expr) :
    OptionT Lift.Emit Unit := do
  let result ← Lift.temp (Lift.accumulated (if subtract then .sub else .add) acc product)
  let wrapped :=
    if subtract then Expr.compare .ult .double acc product
    else Expr.compare .ult .double result acc
  let v := Expr.low .byte (← Lift.temp wrapped)
  Lift.status v (← within (advanced result))
  let bound := Expr.const .double (if subtract then 0 else .allOnes 64)
  Lift.set dst (if sat then .select .double v bound result else result)

@[simp]
theorem setAccumulatedU_eq (dst : Register) (subtract sat : Bool) (acc product : Expr) :
    setAccumulatedU dst subtract sat acc product =
      liftM (Lift.setAccumulatedU dst subtract sat acc product) := by
  simp [setAccumulatedU, Lift.setAccumulatedU]

def multiply (sign : Sign) (wide sat : Bool) : OptionT Lift.Planning Unit := do
  let (dst, a, b) ← s.binary
  emitting do
    let product ← Lift.temp (.mul .double (.extend sign .double a) (.extend sign .double b))
    if wide then setProduct dst product else setWord dst sign sat product

theorem multiply_eq (sign : Sign) (wide sat : Bool) :
    multiply s sign wide sat = liftM (Lift.Plan.multiply sign wide sat s) :=
  read_eq .any fun _ _ => emitting_eq (by cases wide <;> simp)

def multiplyAdd (subtract : Bool) (sign : Sign) (wide sat : Bool) :
    OptionT Lift.Planning Unit := do
  let dst ← s.reg 0
  let acc ← s.value 1
  let a ← s.value 2
  let b ← s.value 3
  let op : Accumulate := if subtract then .sub else .add
  emitting do
    let product ← Lift.temp (.mul .double (.extend sign .double a) (.extend sign .double b))
    if wide then
      let acc ← Lift.temp acc
      match sign with
      | .signed => setAccumulated dst op sat acc product
      | .unsigned => setAccumulatedU dst subtract sat acc product
    else
      let product :=
        match sign with
        | .signed => product
        | .unsigned =>
          .select .double (.compare .ugt .double product (.const .double 0xFFFFFFFF))
            (.const .double 0x100000000) product
      setWord dst sign sat
        (← Lift.temp (Lift.accumulated op (.extend sign .double acc) product))

theorem multiplyAdd_eq (subtract : Bool) (sign : Sign) (wide sat : Bool) :
    multiplyAdd s subtract sign wide sat =
      liftM (Lift.Plan.multiplyAdd subtract sign wide sat s) :=
  read_eq .any fun _ _ => read_eq .any fun _ _ => read_eq .any fun _ _ => read_eq .any fun _ _ =>
    emitting_eq (by cases wide <;> cases sign <;> simp)

def fit (sat : Bool) (sum : Expr) : Option Expr :=
  if sat then saturate sum .word .signed else some (.low .word sum)

@[simp]
theorem fit_eq (sat : Bool) (sum : Expr) : fit sat sum = some (Lift.fit sat sum) := by
  cases sat <;> simp [fit, Lift.fit]

def setMerged (dst : Register) (acc : Option Expr) (hi lo : Accumulate) (sat : Bool)
    (p1 p0 : Expr) : OptionT Lift.Emit Unit := do
  let op : BinOp := if hi = lo ∨ hi = .none then .add else .sub
  let merged ← Lift.temp (.shl .double (.binary op .double p1 p0) (.const .double 16))
  match acc with
  | none => setProduct dst merged
  | some acc => setAccumulated dst hi sat acc merged

@[simp]
theorem setMerged_eq (dst : Register) (acc : Option Expr) (hi lo : Accumulate) (sat : Bool)
    (p1 p0 : Expr) :
    setMerged dst acc hi lo sat p1 p0 = liftM (Lift.setMerged dst acc hi lo sat p1 p0) := by
  cases acc <;> simp [setMerged, Lift.setMerged]

def setSeparate (dst : Register) (acc : Option Expr) (hi lo : Accumulate) (shape : ProductShape)
    (sat : Bool) (p1 p0 : Expr) : OptionT Lift.Emit Unit := do
  let rounded : Bool := shape ≠ .pair
  let (acc1, acc0) := Lift.accumulatorWords shape acc
  let w1 ← Lift.temp (Lift.rounding rounded (Lift.accumulated hi acc1 p1))
  let w0 ← Lift.temp (Lift.rounding rounded (Lift.accumulated lo acc0 p0))
  Lift.status (.or .byte (w1.overflow .word .signed) (w0.overflow .word .signed))
    (.or .byte (← within (advanced (.low .word w1))) (← within (advanced (.low .word w0))))
  let f1 ← within (fit sat w1)
  let f0 ← within (fit sat w0)
  Lift.set dst (
    if rounded then .or .word (Lift.upperHalf f1) (.lsr .word f0 (.const .word 16))
    else .pair f1 f0)

@[simp]
theorem setSeparate_eq (dst : Register) (acc : Option Expr) (hi lo : Accumulate)
    (shape : ProductShape) (sat : Bool) (p1 p0 : Expr) :
    setSeparate dst acc hi lo shape sat p1 p0 =
      liftM (Lift.setSeparate dst acc hi lo shape sat p1 p0) := by
  simp [setSeparate, Lift.setSeparate]

def halfMultiply (halves : HalfPair) (hi lo : Accumulate) (shape : ProductShape) (sat : Bool) :
    OptionT Lift.Planning Unit := do
  let dst ← s.reg 0
  let acc? ← (if hi = .none then pure none else some <$> s.value 1 : Lift.Read (Option Expr))
  let first := if hi = .none then 1 else 2
  let a ← s.value first
  let b ← s.value (first + 1)
  let n ← s.count (first + 2)
  emitting do
    let acc? ← liftM (n := OptionT Lift.Emit) (match acc? with
      | none => pure none
      | some acc => some <$> Lift.temp acc : Lift.Emit (Option Expr))
    let a ← Lift.temp a
    let b ← Lift.temp b
    let p1 ← Lift.temp (Lift.halfProduct (Lift.half a true) (Lift.half b halves.upper) n)
    let p0 ← Lift.temp (Lift.halfProduct (Lift.half a false) (Lift.half b halves.lower) n)
    match shape with
    | .merged => setMerged dst acc? hi lo sat p1 p0
    | _ => setSeparate dst acc? hi lo shape sat p1 p0

theorem halfMultiply_eq (halves : HalfPair) (hi lo : Accumulate) (shape : ProductShape)
    (sat : Bool) : halfMultiply s halves hi lo shape sat =
      liftM (Lift.Plan.halfMultiply halves hi lo shape sat s) :=
  read_eq .any fun _ _ => read_eq .any fun acc? _ => read_eq .any fun _ _ => read_eq .any fun _ _ =>
    read_eq .any fun _ _ => emitting_eq (by cases shape <;> cases acc? <;> simp)

def fractionMultiply (src : FractionSource) (wide : Bool) (acc : Accumulate) (round sat : Bool) :
    OptionT Lift.Planning Unit := do
  let dst ← s.reg 0
  let acc? ← (if acc = .none then pure none else some <$> s.value 1 : Lift.Read (Option Expr))
  let first := if acc = .none then 1 else 2
  let a ← s.value first
  let b ← s.value (first + 1)
  let n ← s.count (first + 2)
  emitting do
    let a ← Lift.temp a
    let b ← Lift.temp b
    let product ← Lift.temp (Lift.fractionProduct src wide a b n)
    if wide then
      match acc? with
      | none => setProduct dst product
      | some value => setAccumulated dst acc sat (← Lift.temp value) product
    else
      let start :=
        match acc? with
        | none => .const .double 0
        | some value => .sext .double value
      let result ← Lift.temp (Lift.rounding round (Lift.accumulated acc start product))
      Lift.status (result.overflow .word .signed) (← within (advanced (.low .word result)))
      let fitted ← within (fit sat result)
      Lift.set dst (if round then Lift.upperHalf fitted else fitted)

theorem fractionMultiply_eq (src : FractionSource) (wide : Bool) (acc : Accumulate)
    (round sat : Bool) : fractionMultiply s src wide acc round sat =
      liftM (Lift.Plan.fractionMultiply src wide acc round sat s) :=
  read_eq .any fun _ _ => read_eq .any fun acc? _ => read_eq .any fun _ _ => read_eq .any fun _ _ =>
    read_eq .any fun _ _ => emitting_eq (by cases wide <;> cases acc? <;> simp)

/-! ## Division and floating-point flags -/

def dividend (s : Sign) (n : Nat) (a b : Expr) : Option Expr :=
  let extended := Expr.extend s .double a
  let shifted := Expr.shl .double extended (.const .double (.ofNat 64 n))
  if n = 0 then some extended
  else
    match s with
    | .unsigned => some shifted
    | .signed => do
      let sign := Expr.bit (.xor .word a b) 31
      let ones ← sub (← shl (1 : Value) n).toNat 1
      return .or .double shifted
        (.and .double (.neg .double (.zext .double sign)) (.const .double (.ofNat 64 ones)))

theorem dividend_eq (s : Sign) (l : Lane) (a b : Expr) :
    dividend s (32 - l.bits) a b = some (Lift.dividend s (32 - l.bits) a b) := by
  cases s <;> cases l <;> rfl

def divide (sign : Sign) : OptionT Lift.Planning Unit := do
  let dst ← s.reg 0
  let a ← s.value 1
  let b ← s.value 2
  let (div, mod) : BinOp × BinOp :=
    match sign with
    | .signed => (.divS, .modS)
    | .unsigned => (.divU, .modU)
  emitting do
    let a ← Lift.temp a
    let b ← Lift.temp b
    let quotient ← Lift.temp (.binary div .word a b)
    Lift.overflowStatus (Lift.divisionOverflow sign a b) (← within (advanced quotient))
    Lift.set dst (.pair (.binary mod .word a b) quotient)

theorem divide_eq (sign : Sign) : divide s sign = liftM (Lift.Plan.divide sign s) :=
  read_eq .any fun _ _ => read_eq .any fun _ _ => read_eq .any fun _ _ =>
    emitting_eq (by cases sign <;> simp)

def divideInit (l : Lane) (sign : Sign) : OptionT Lift.Planning Unit := do
  let dst ← s.reg 0
  let a ← s.value 1
  let b ← s.value 2
  let overflows : Sign := if l = .word then sign else .unsigned
  emitting do
    let a ← Lift.temp a
    let b ← Lift.temp b
    Lift.overflowStatus (Lift.divisionOverflow overflows a b) (.const .byte 0)
    Lift.set dst (← within (dividend sign (← within (sub 32 l.bits)) a b))

theorem divideInit_eq (l : Lane) (sign : Sign) :
    divideInit s l sign = liftM (Lift.Plan.divideInit l sign s) := by
  have hl : sub 32 l.bits = some (32 - l.bits) := by cases l <;> rfl
  exact read_eq .any fun _ _ => read_eq .any fun _ _ => read_eq .any fun _ _ =>
    emitting_eq (by simp [hl, dividend_eq])

def updateFlags : OptionT Lift.Planning Unit := do
  let src ← s.value 0
  emitting do
    let src ← Lift.temp src
    let stmts ← within <| Flag.floating.mapM fun f => do
      let n ← sub f.bit 24
      return .setFlag f (.select .byte (src.bit (← add 32 n 8)) (src.bit n) (.flag f))
    Lift.emitAll stmts

theorem updateFlags_eq : updateFlags s = liftM (Lift.Plan.updateFlags s) :=
  read_eq .any fun _ _ => emitting_eq (bind_eq (Q := fun _ => True) (fun _ => trivial)
    fun _ _ => rfl)

end Checked

end Tricore
