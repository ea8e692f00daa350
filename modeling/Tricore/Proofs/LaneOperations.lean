import Mathlib
import Tricore.Proofs.Accumulation
import Tricore.Proofs.CheckedArithmetic
import Tricore.Proofs.Lanes

/-!
# Operations on lanes

An operation on lanes computes each lane of its result from the same lane of its sources: what is
left at the width of the lane of an exact integer (`LaneOp.exact`). Overflow is reported if it
happens in some lane (`Machine.Lanewise`). Lanes are computed one after the other, each with a
temporary of its own; `Emit.Runs.mapM` is the rule for that. Together with the search for equal
lanes and the counts of leading bits, these are the instructions that work lane by lane
(`lanes_match_scalars`).
-/

namespace Tricore

/-! ## Emissions one after the other -/

namespace Lift.Emit.Runs

variable {ι α β : Type} [Bus β] {pc : Address} {s : Supply} {m : Machine β}

/-- Emissions for the elements of a list. What holds of one result must keep while the others are
computed. -/
theorem mapM {f : ι → Emit α} {P : ι → α → Machine β → Nat → Prop}
    (hP : ∀ {i a m n m' n'}, P i a m n → m.Extends n m' n' → P i a m' n') {is : List ι}
    (h : ∀ i ∈ is, ∀ s₁ m₁, m.Extends s.temps m₁ s₁.temps →
      (f i).Runs pc s₁ m₁ fun a s₂ m₂ =>
        m₁.Extends s₁.temps m₂ s₂.temps ∧ P i a m₂ s₂.temps) :
    (is.mapM f).Runs pc s m fun as s' m' => m.Extends s.temps m' s'.temps ∧
      List.Forall₂ (fun i a => P i a m' s'.temps) is as := by
  induction is generalizing s m with
  | nil => exact pure ⟨.refl m _, .nil⟩
  | cons i is ih =>
    rw [List.mapM_cons]
    refine bind ((h i (by simp) s m (.refl m _)).mono fun a s₁ m₁ ha => ?_)
    refine bind ((ih fun j hj s₂ m₂ hm₂ => ?_).mono fun as s₂ m₂ has => ?_)
    · exact h j (List.mem_cons_of_mem i hj) s₂ m₂ (ha.1.trans hm₂)
    · exact pure ⟨ha.1.trans has.1, .cons (hP ha.2 has.1) has.2⟩

end Lift.Emit.Runs

/-! ## Operations -/

namespace LaneOp

/-- How an operation reads its lanes. -/
def sign : LaneOp → Sign
  | addSat s | subSat s | min s | max s | lt s => s
  | _ => .signed

def saturates : LaneOp → Bool
  | addSat _ | subSat _ | absSat | absDiffSat => true
  | _ => false

/-- The exact result of a lane. A test that holds is minus one, which is all ones. -/
def exact (op : LaneOp) {k : Nat} (x y : BitVec k) : Int :=
  let a := op.sign.number x
  let b := op.sign.number y
  match op with
  | add | addSat _ => a + b
  | sub | subSat _ => a - b
  | abs | absSat => |a|
  | absDiff | absDiffSat => |a - b|
  | min _ => Min.min a b
  | max _ => Max.max a b
  | eq => if x = y then -1 else 0
  | lt _ => if a < b then -1 else 0
  | shift | shiftArithmetic => a

/-- What a lane takes of the exact result. -/
def result (op : LaneOp) (l : Lane) (x y : BitVec l.bits) : BitVec l.bits :=
  op.sign.stored l.width op.saturates (op.exact x y)

end LaneOp

theorem Sign.ofInt_number (s : Sign) {k : Nat} (x : BitVec k) :
    BitVec.ofInt k (s.number x) = x := by
  cases s with
  | signed => exact BitVec.ofInt_toInt
  | unsigned => rw [number, BitVec.ofInt_natCast, BitVec.ofNat_toNat, BitVec.setWidth_eq]

/-- Lanes have at most 32 bits. -/
theorem Lane.abs_number_le (l : Lane) (s : Sign) (x : BitVec l.bits) : |s.number x| ≤ 2 ^ 32 := by
  have hle : (2 : Int) ^ l.bits ≤ 2 ^ 32 := by cases l <;> decide
  refine le_trans ?_ hle
  cases s with
  | signed =>
    exact (abs_toInt_le x).trans (pow_le_pow_right₀ (by decide) (Nat.sub_le _ _))
  | unsigned =>
    have hlt : (x.toNat : Int) < 2 ^ l.bits := by exact_mod_cast x.isLt
    rw [Sign.number, abs_of_nonneg (Int.natCast_nonneg _)]
    exact hlt.le

theorem LaneOp.fits_exact (op : LaneOp) (l : Lane) (x y : BitVec l.bits) :
    Sign.signed.Fits .double (op.exact x y) := by
  have hx := abs_le.1 (l.abs_number_le op.sign x)
  have hy := abs_le.1 (l.abs_number_le op.sign y)
  refine fits_of_abs_lt (abs_lt.2 ?_)
  cases op <;> simp only [exact, abs_eq_max_neg] <;> (try split_ifs) <;> omega

/-! ## Statements -/

namespace Lift

variable {β : Type} [Bus β] {pc : Address} {s : Supply} {m m₁ : Machine β} {n : Nat} {a b e : Expr}
  {l : Lane} {x y : BitVec l.bits} {z : Int} {t : Bool}

theorem carries_magnitude (ha : a.Carries m n z) (hz : Sign.signed.Fits .double z) :
    (magnitude a).Carries m n |z| := by
  have hnegative : (Expr.compare .slt .double a (.const .double 0)).Decides m n
      (decide (z < 0)) := by
    have h := Expr.Yields.slt ha (.const_double 0) (w := .double) rfl
    rwa [toInt_ofInt_of_fits hz] at h
  have hneg : (Expr.neg .double a).Carries m n (-z) := by
    have h := Expr.Yields.neg ha (w := .double) rfl
    rwa [← BitVec.ofInt_neg] at h
  have h := Expr.Carries.select hnegative hneg ha
  have hvalue : (if decide (z < 0) = true then -z else z) = |z| := by
    simp only [abs_eq_max_neg, decide_eq_true_eq]
    split_ifs <;> omega
  rwa [hvalue] at h

theorem decides_less (sign : Sign) (ha : a.Yields m n x) (hb : b.Yields m n y) :
    (less sign l.width a b).Decides m n (decide (sign.number x < sign.number y)) := by
  cases sign with
  | signed => exact ha.slt hb rfl
  | unsigned =>
    simp only [Sign.number, Nat.cast_lt]
    exact ha.ult hb rfl

theorem ofInt_min (sign : Sign) (x y : BitVec l.bits) :
    (if decide (sign.number x < sign.number y) then x else y) =
      BitVec.ofInt l.bits (min (sign.number x) (sign.number y)) := by
  by_cases h : sign.number x < sign.number y
  · rw [if_pos (decide_eq_true h), min_eq_left h.le, sign.ofInt_number]
  · rw [if_neg (by simpa using h), min_eq_right (not_lt.1 h), sign.ofInt_number]

theorem ofInt_max (sign : Sign) (x y : BitVec l.bits) :
    (if decide (sign.number x < sign.number y) then y else x) =
      BitVec.ofInt l.bits (max (sign.number x) (sign.number y)) := by
  by_cases h : sign.number x < sign.number y
  · rw [if_pos (decide_eq_true h), max_eq_right h.le, sign.ofInt_number]
  · rw [if_neg (by simpa using h), max_eq_left (not_lt.1 h), sign.ofInt_number]

/-- A truth value at the width of a lane is zero or minus one. -/
theorem yields_allOnes (ht : e.Decides m n t) :
    (allOnes l.width e).Yields m n (BitVec.ofInt l.bits (if t then -1 else 0)) := by
  have hle : 8 ≤ l.bits := by cases l <;> decide
  have hzext : (Expr.zext l.width e).Yields m n (((BitVec.ofBool t).setWidth 8).setWidth l.bits) :=
    Expr.Yields.extend (s := .unsigned) ht rfl hle
  have h := hzext.neg (w := l.width) rfl
  have hvalue : -((BitVec.ofBool t).setWidth 8).setWidth l.bits =
      BitVec.ofInt l.bits (if t then -1 else 0) := by
    cases t <;> cases l <;> rfl
  rwa [hvalue] at h

/-- The result of a lane is as it should be, and so is its report, if there is any. -/
structure LaneResult.Holds (op : LaneOp) (x y : BitVec l.bits) (r : LaneResult) (m : Machine β)
    (n : Nat) : Prop where
  value : r.value.Yields m n (op.result l x y)
  status : if op.reports then ∃ v av, r.status? = some (v, av) ∧
      v.Decides m n (!decide (op.sign.Fits l.width (op.exact x y))) ∧
      av.Decides m n (l.width.advances (op.exact x y))
    else r.status? = none

theorem LaneResult.Holds.mono {op : LaneOp} {r : LaneResult} {m' : Machine β} {n' : Nat}
    (h : r.Holds op x y m n) (hm : m.Extends n m' n') : r.Holds op x y m' n' := by
  refine ⟨h.value.mono hm.grows hm.le, ?_⟩
  have hstatus := h.status
  split_ifs at hstatus ⊢ with hreports
  · obtain ⟨v, av, hr, hv, hav⟩ := hstatus
    exact ⟨v, av, hr, hv.mono hm.grows hm.le, hav.mono hm.grows hm.le⟩
  · exact hstatus

theorem runs_exactLane (op : LaneOp) (hreports : op.reports = true) {wide : Expr}
    (hwide : wide.Carries m s.temps (op.exact x y)) :
    (exactLane l.width op.sign op.saturates wide).Runs pc s m fun r s' m' =>
      m.Extends s.temps m' s'.temps ∧ r.Holds op x y m' s'.temps := by
  have hfits := op.fits_exact l x y
  have hl : l.width ≠ .double := by cases l <;> decide
  refine .bind (.temp hwide (by decide) fun m' e hgrows hpsw he => ?_)
  have he : e.Carries m' (s.temps + 1) (op.exact x y) := he
  refine .pure ⟨⟨hgrows, Nat.le_succ _, hpsw⟩, he.narrow_stored hl hfits, ?_⟩
  rw [if_pos hreports]
  exact ⟨_, _, rfl, he.narrow_overflow hl hfits, he.narrow_advanced⟩

/-- An operation that only chooses or tests takes no temporary. -/
theorem runs_plainLane (op : LaneOp) (hreports : op.reports = false)
    (he : e.Yields m s.temps (BitVec.ofInt l.bits (op.exact x y))) :
    (Pure.pure { value := e, status? := none } : Emit LaneResult).Runs pc s m fun r s' m' =>
      m.Extends s.temps m' s'.temps ∧ r.Holds op x y m' s'.temps := by
  have hresult : op.result l x y = BitVec.ofInt l.bits (op.exact x y) := by
    cases op with
    | addSat | subSat | absSat | absDiffSat => cases hreports
    | _ => rfl
  refine .pure ⟨.refl m _, hresult ▸ he, ?_⟩
  rw [if_neg (by simp [hreports])]

theorem runs_laneResult (op : LaneOp) (ha : a.Yields m s.temps x) (hb : b.Yields m s.temps y) :
    (laneResult op l.width a b).Runs pc s m fun r s' m' =>
      m.Extends s.temps m' s'.temps ∧ r.Holds op x y m' s'.temps := by
  have hsa := Expr.Carries.extend .signed ha
  have hsb := Expr.Carries.extend .signed hb
  have hmagnitude := carries_magnitude hsa (LaneOp.fits_exact .shift l x y)
  have hdistance := carries_magnitude (hsa.sub hsb) (LaneOp.fits_exact .sub l x y)
  cases op with
  | add => exact runs_exactLane .add rfl (hsa.add hsb)
  | addSat sign =>
    exact runs_exactLane (.addSat sign) rfl ((Expr.Carries.extend sign ha).add (.extend sign hb))
  | sub => exact runs_exactLane .sub rfl (hsa.sub hsb)
  | subSat sign =>
    exact runs_exactLane (.subSat sign) rfl ((Expr.Carries.extend sign ha).sub (.extend sign hb))
  | abs => exact runs_exactLane .abs rfl hmagnitude
  | absSat => exact runs_exactLane .absSat rfl hmagnitude
  | absDiff => exact runs_exactLane .absDiff rfl hdistance
  | absDiffSat => exact runs_exactLane .absDiffSat rfl hdistance
  | min sign =>
    refine runs_plainLane (.min sign) rfl ?_
    rw [LaneOp.exact, LaneOp.sign, ← ofInt_min]
    exact Expr.Yields.select (decides_less sign ha hb) ha hb (w := l.width) rfl
  | max sign =>
    refine runs_plainLane (.max sign) rfl ?_
    rw [LaneOp.exact, LaneOp.sign, ← ofInt_max]
    exact Expr.Yields.select (decides_less sign ha hb) hb ha (w := l.width) rfl
  | eq =>
    refine runs_plainLane .eq rfl ?_
    have h := yields_allOnes (l := l) (ha.eq hb (w := l.width) rfl)
    simp only [decide_eq_true_eq] at h
    exact h
  | lt sign =>
    refine runs_plainLane (.lt sign) rfl ?_
    have h := yields_allOnes (l := l) (decides_less sign ha hb)
    simp only [decide_eq_true_eq] at h
    exact h
  | shift =>
    refine runs_plainLane .shift rfl ?_
    exact (Sign.ofInt_number .signed x).symm ▸ ha
  | shiftArithmetic =>
    refine runs_plainLane .shiftArithmetic rfl ?_
    exact (Sign.ofInt_number .signed x).symm ▸ ha

theorem flags_of_holds {op : LaneOp} (hreports : op.reports = true) {is : List Nat}
    {parts : List LaneResult} {f g : Nat → BitVec l.bits}
    (h : List.Forall₂ (fun i r => r.Holds op (f i) (g i) m n) is parts) :
    List.Forall₂ (fun p z => p.1.Decides m n (!decide (op.sign.Fits l.width z)) ∧
      p.2.Decides m n (l.width.advances z)) (parts.filterMap (·.status?))
        (is.map fun i => op.exact (f i) (g i)) := by
  induction h with
  | nil => exact .nil
  | cons hr _ ih =>
    have hstatus := hr.status
    rw [if_pos hreports] at hstatus
    obtain ⟨v, av, hsome, hv, hav⟩ := hstatus
    rw [List.filterMap_cons_some hsome]
    exact .cons ⟨hv, hav⟩ ih

theorem no_flags_of_holds {op : LaneOp} (hreports : op.reports = false) {is : List Nat}
    {parts : List LaneResult} {f g : Nat → BitVec l.bits}
    (h : List.Forall₂ (fun i r => r.Holds op (f i) (g i) m n) is parts) :
    parts.filterMap (·.status?) = [] := by
  induction h with
  | nil => rfl
  | cons hr _ ih =>
    have hstatus := hr.status
    rw [if_neg (by simp [hreports])] at hstatus
    rw [List.filterMap_cons_none hstatus, ih]

end Lift

/-- The exact results of all lanes. -/
def LaneOp.exacts (op : LaneOp) (l : Lane) (x y : Word) : List Int :=
  (List.range l.count).map fun i => op.exact (l.part i x) (l.part i y)

/-- What an operation on lanes leaves behind. -/
structure Machine.Lanewise {β : Type} (m : Machine β) (op : LaneOp) (l : Lane) (x y : Word)
    (dst : Nat) (m' : Machine β) : Prop where
  lanes : ∀ i < l.count,
    l.part i ((Operand.reg (.d dst)).word m'.core) = op.result l (l.part i x) (l.part i y)
  status : if op.reports then
      m.Reports ((op.exacts l x y).any fun z => !decide (op.sign.Fits l.width z))
        ((op.exacts l x y).any l.width.advances) m'
    else m'.core.psw = m.core.psw

theorem Lane.part_word {l : Lane} {c : Core} {dst i : Nat} {f : Nat → BitVec l.bits}
    (h : c.read (.d dst) = (l.join f).setWidth 64) (hi : i < l.count) :
    l.part i ((Operand.reg (.d dst)).word c) = f i := by
  rw [Operand.word_of_read h, part_join f hi]

namespace Lift

variable {β : Type} [Bus β] {pc : Address} {s : Supply} {m m₁ : Machine β} {a b : Expr} {l : Lane}
  {x y : Word}

/-- What is left to do when the lanes are computed. -/
def setLanes (l : Lane) (dst : Register) (parts : List LaneResult) : Emit Unit := do
  let result ← temp (.pack l (parts.map (·.value)))
  match parts.filterMap (·.status?) with
  | [] => pure ()
  | flags => status (.any (flags.map (·.1))) (.any (flags.map (·.2)))
  set dst result

theorem runs_setLanes {op : LaneOp} {dst : Nat} {parts : List LaneResult}
    (hparts : List.Forall₂ (fun i r => r.Holds op (l.part i x) (l.part i y) m s.temps)
      (List.range l.count) parts) (hpsw : m.core.psw = m₁.core.psw) :
    (setLanes l (.d dst) parts).Runs pc s m fun _ _ m' => m₁.Lanewise op l x y dst m' := by
  have hvalues : List.Forall₂
      (fun i e => e.Yields m s.temps (op.result l (l.part i x) (l.part i y)))
      (List.range l.count) (parts.map (·.value)) :=
    List.forall₂_map_right_iff.2 (hparts.imp fun _ _ hr => hr.value)
  refine .bind (.temp (.pack hvalues) (by decide) fun m₂ result hgrows₂ hpsw₂ hresult => ?_)
  have hpsw := hpsw₂.trans hpsw
  cases hreports : op.reports with
  | false =>
    simp only [no_flags_of_holds hreports hparts]
    refine .set hresult ⟨fun i hi => ?_, ?_⟩
    · exact Lane.part_word ((Register.Takes.word dst).read_write _ _) hi
    · rw [hreports]
      exact hpsw
  | true =>
    have hflags := flags_of_holds hreports
      (hparts.imp fun _ _ hr => hr.mono ⟨hgrows₂, Nat.le_succ _, hpsw₂⟩)
    have hne : parts.filterMap (·.status?) ≠ [] := by
      intro hnil
      have hlength := hflags.length_eq
      rw [hnil, List.length_map, List.length_range] at hlength
      cases l <;> cases hlength
    have hv := Expr.Decides.any (List.forall₂_map_left_iff.2
      (List.forall₂_map_right_iff.2 (hflags.imp fun _ _ h => h.1)))
    have hav := Expr.Decides.any (List.forall₂_map_left_iff.2
      (List.forall₂_map_right_iff.2 (hflags.imp fun _ _ h => h.2)))
    rw [List.any_map] at hv hav
    generalize parts.filterMap (·.status?) = flags at hne hv hav ⊢
    cases flags with
    | nil => exact absurd rfl hne
    | cons p rest =>
      refine (runs_deliver hv hav hresult (.word dst) hpsw).mono fun _ _ m' hm => ?_
      refine ⟨fun i hi => ?_, ?_⟩
      · exact Lane.part_word hm.result hi
      · rw [hreports]
        exact hm.reports

theorem runs_lanes (op : LaneOp) {dst : Nat} (ha : a.Yields m s.temps x) (hb : b.Yields m s.temps y)
    (hpsw : m.core.psw = m₁.core.psw) :
    (Plan.lanes op l (.d dst) a b).Runs pc s m fun _ _ m' => m₁.Lanewise op l x y dst m' := by
  refine .bind (.temp ha (by decide) fun m₂ a hgrows₂ hpsw₂ ha => ?_)
  refine .bind (.temp (hb.mono hgrows₂ (Nat.le_succ _)) (by decide) fun m₃ b hgrows₃ hpsw₃ hb => ?_)
  have ha := ha.mono hgrows₃ (Nat.le_succ _)
  have hlane : ∀ i ∈ List.range l.count, ∀ (s₄ : Supply) (m₄ : Machine β),
      m₃.Extends (s.temps + 1 + 1) m₄ s₄.temps →
      (laneResult op l.width (a.lane l i) (b.lane l i)).Runs pc s₄ m₄ fun r s₅ m₅ =>
        m₄.Extends s₄.temps m₅ s₅.temps ∧
          r.Holds op (l.part i x) (l.part i y) m₅ s₅.temps := by
    intro i hi s₄ m₄ hm
    have hi := List.mem_range.1 hi
    exact runs_laneResult op ((ha.lane hi).mono hm.grows hm.le) ((hb.lane hi).mono hm.grows hm.le)
  refine .bind ((Emit.Runs.mapM (fun h hm => h.mono hm) hlane).mono fun parts s₄ m₄ h => ?_)
  refine runs_setLanes h.2 ?_
  rw [h.1.psw, hpsw₃, hpsw₂, hpsw]

/-- The statements of a search for equal lanes, with the operands read, -/
def setAnyEqual (l : Lane) (dst : Register) (a b : Expr) : Emit Unit := do
  let a ← temp a
  let b ← temp b
  let hits := (List.range l.count).map fun i =>
    Expr.compare .eq l.width (a.lane l i) (b.lane l i)
  set dst (.zext .word (.any hits))

/-- and those of a count. -/
def setCount (kind : CountKind) (l : Lane) (dst : Register) (src : Expr) : Emit Unit := do
  let src ← temp src
  set dst (.pack l ((List.range l.count).map fun i => Plan.counted kind l.width (src.lane l i)))

theorem runs_anyEqual {dst : Nat} (ha : a.Yields m s.temps x) (hb : b.Yields m s.temps y)
    (hpsw : m.core.psw = m₁.core.psw) :
    (setAnyEqual l (.d dst) a b).Runs pc s m fun _ _ m' =>
      m'.core.read (.d dst) = (if ∃ i < l.count, l.part i x = l.part i y then 1 else 0) ∧
        m'.core.psw = m₁.core.psw := by
  refine .bind (.temp ha (by decide) fun m₂ a hgrows₂ hpsw₂ ha => ?_)
  refine .bind (.temp (hb.mono hgrows₂ (Nat.le_succ _)) (by decide) fun m₃ b hgrows₃ hpsw₃ hb => ?_)
  have ha := ha.mono hgrows₃ (Nat.le_succ _)
  have hhits : List.Forall₂ (fun e t => e.Decides m₃ (s.temps + 1 + 1) t)
      ((List.range l.count).map fun i => Expr.compare .eq l.width (a.lane l i) (b.lane l i))
      ((List.range l.count).map fun i => decide (l.part i x = l.part i y)) := by
    refine List.forall₂_map_left_iff.2 (List.forall₂_map_right_iff.2 (List.forall₂_same.2 ?_))
    intro i hi
    have hi := List.mem_range.1 hi
    exact (ha.lane hi).eq (hb.lane hi) rfl
  have hany := Expr.Decides.any hhits
  have hsome : ((List.range l.count).map fun i => decide (l.part i x = l.part i y)).any id =
      decide (∃ i < l.count, l.part i x = l.part i y) := by
    rw [Bool.eq_iff_iff, decide_eq_true_iff]
    simp
  rw [hsome] at hany
  have hword := Expr.Yields.extend (s := .unsigned) (w := .word) (j := 32) hany rfl (by decide)
  refine .set hword ⟨((Register.Takes.word dst).read_write _ _).trans ?_, ?_⟩
  · by_cases hequal : ∃ i < l.count, l.part i x = l.part i y
    · rw [decide_eq_true hequal, if_pos hequal]
      rfl
    · rw [decide_eq_false hequal, if_neg hequal]
      rfl
  · exact (hpsw₃.trans hpsw₂).trans hpsw

theorem runs_count (kind : CountKind) (m₁ : Machine β) {dst : Nat} (ha : a.Yields m s.temps x)
    (hpsw : m.core.psw = m₁.core.psw) :
    (setCount kind l (.d dst) a).Runs pc s m fun _ _ m' =>
      (∀ i < l.count, l.part i ((Operand.reg (.d dst)).word m'.core) =
        BitVec.ofNat l.bits (kind.count (l.part i x))) ∧ m'.core.psw = m₁.core.psw := by
  refine .bind (.temp ha (by decide) fun m₂ a hgrows₂ hpsw₂ ha => ?_)
  have hcounts : List.Forall₂
      (fun i e => e.Yields m₂ (s.temps + 1) (BitVec.ofNat l.bits (kind.count (l.part i x))))
      (List.range l.count)
      ((List.range l.count).map fun i => Plan.counted kind l.width (a.lane l i)) := by
    refine List.forall₂_map_right_iff.2 (List.forall₂_same.2 fun i hi => ?_)
    exact yields_counted kind (ha.lane (List.mem_range.1 hi)) rfl
  refine .set (.pack hcounts) ⟨fun i hi => ?_, hpsw₂.trans hpsw⟩
  exact Lane.part_word ((Register.Takes.word dst).read_write _ _) hi

end Lift

/-! ## All operations on lanes -/

/-- The operations on lanes other than shifts. -/
def Action.lanes? : Action → Option (LaneOp × Lane)
  | .packed .shift _ | .packed .shiftArithmetic _ => none
  | .packed op l => some (op, l)
  | _ => none

/-- An operation with a single source. -/
def LaneOp.unary : LaneOp → Bool
  | abs | absSat => true
  | _ => false

namespace Opcode

theorem lane_rows : ∀ g ∈ table, ∀ r ∈ g.rows, ∀ p ∈ r.action.lanes?,
    if p.1.unary then r.operands.map (·.shape) = [.data, .data]
    else ∃ rhs ∈ [Shape.data, .imm], r.operands.map (·.shape) = [.data, .data, rhs] := by
  decide +kernel

theorem anyEqual_rows : ∀ g ∈ table, ∀ r ∈ g.rows,
    ∀ p ∈ [("eqany.b", Lane.byte), ("eqany.h", .half)], r.mnemonic = p.1 →
      r.action = .anyEqual p.2 ∧
        ∃ rhs ∈ [Shape.data, .imm], r.operands.map (·.shape) = [.data, .data, rhs] := by
  decide +kernel

end Opcode

/-- The counts of leading bits. -/
def CountKind.named : List (String × CountKind × Lane) :=
  [("clz", .zeros, .word), ("clo", .ones, .word), ("cls", .signs, .word),
    ("clz.h", .zeros, .half), ("clo.h", .ones, .half), ("cls.h", .signs, .half)]

theorem Opcode.count_rows : ∀ g ∈ table, ∀ r ∈ g.rows, ∀ p ∈ CountKind.named,
    r.mnemonic = p.1 → r.action = .count p.2.1 p.2.2 ∧
      r.operands.map (·.shape) = [.data, .data] := by
  decide +kernel

/-- The sources of an operation on lanes; a missing one is zero. -/
def Operand.laneSources? : List Operand → Option (Operand × Operand)
  | [_, x] => some (x, .imm 0)
  | [_, x, y] => some (x, y)
  | _ => none

theorem Action.lanes?_eq_some {a : Action} {op : LaneOp} {l : Lane} :
    a.lanes? = some (op, l) ↔ a = .packed op l ∧ op ≠ .shift ∧ op ≠ .shiftArithmetic := by
  cases a with
  | packed op' l' => cases op' <;> simp [lanes?, eq_comm] <;> grind
  | _ => simp [lanes?]

namespace Instruction

variable {i : Instruction} {op : LaneOp} {l : Lane} {dst : Nat} {x y : Operand}

/-- The destination and the two sources of an operation on lanes. -/
theorem plan_lanes (ha : i.row.action.lanes? = some (op, l))
    (hread : if op.unary then i.operands = [.reg (.d dst), x] ∧ y = .imm 0
      else i.operands = [.reg (.d dst), x, y]) (hx : x.IsWord) (hy : y.IsWord) :
    i.plan = Lift.emitting (Lift.Plan.lanes op l (.d dst) x.expr y.expr) := by
  obtain ⟨ha, hshift, harithmetic⟩ := Action.lanes?_eq_some.1 ha
  rw [Instruction.plan, ha, Lift.plan]
  cases hunary : op.unary with
  | true =>
    rw [hunary] at hread
    obtain ⟨hops, rfl⟩ := hread
    have hsource : (Lift.Source.of i).operands = [.reg (.d dst), x] := by
      rw [operands_of_values, hops]
      simp only [hops, List.forall_mem_cons]
      exact ⟨rfl, hx.takes, by simp⟩
    cases op with
    | abs | absSat =>
      simp only [Lift.Plan.packed]
      rw [Lift.Source.reg_of 0 hsource rfl, Lift.Source.value_of 1 hsource rfl hx.takes]
      rfl
    | _ => cases hunary
  | false =>
    rw [hunary] at hread
    have hbinary : (Lift.Source.of i).binary = .ok (.d dst, x.expr, y.expr) := by
      refine binary_of_values hread ?_
      simp only [show i.operands = _ from hread, List.forall_mem_cons]
      exact ⟨rfl, hx.takes, hy.takes, by simp⟩
    cases op with
    | abs | absSat => cases hunary
    | shift => exact absurd rfl hshift
    | shiftArithmetic => exact absurd rfl harithmetic
    | _ =>
      simp only [Lift.Plan.packed, hbinary]
      rfl

theorem operands_of_lanes (h : if op.unary then i.operands.map (·.shape) = [.data, .data]
      else ∃ rhs ∈ [Shape.data, .imm], i.operands.map (·.shape) = [.data, .data, rhs]) :
    ∃ (dst : Nat) (x y : Operand), (if op.unary then i.operands = [.reg (.d dst), x] ∧ y = .imm 0
      else i.operands = [.reg (.d dst), x, y]) ∧ x.IsWord ∧ y.IsWord := by
  cases hunary : op.unary with
  | true =>
    simp only [hunary, if_true, List.map_eq_cons_iff, List.map_eq_nil_iff] at h
    obtain ⟨o, _, hops, ho, x, _, rfl, hx, rfl⟩ := h
    obtain ⟨dst, rfl⟩ := Operand.exists_data ho
    exact ⟨dst, x, .imm 0, ⟨hops, rfl⟩, .inl hx, .inr rfl⟩
  | false =>
    simp only [hunary, Bool.false_eq_true, if_false, List.map_eq_cons_iff, List.map_eq_nil_iff] at h
    obtain ⟨rhs, hrhs, o, _, hops, ho, x, _, rfl, hx, y, _, rfl, hy, rfl⟩ := h
    obtain ⟨dst, rfl⟩ := Operand.exists_data ho
    have hword : y.IsWord := by simpa [Operand.IsWord, hy] using hrhs
    exact ⟨dst, x, y, hops, .inl hx, hword⟩

theorem plan_anyEqual (ha : i.row.action = .anyEqual l) (hops : i.operands = [.reg (.d dst), x, y])
    (hx : x.IsWord) (hy : y.IsWord) :
    i.plan = Lift.emitting (Lift.setAnyEqual l (.d dst) x.expr y.expr) := by
  have hbinary : (Lift.Source.of i).binary = .ok (.d dst, x.expr, y.expr) := by
    refine binary_of_values hops ?_
    simp only [hops, List.forall_mem_cons]
    exact ⟨rfl, hx.takes, hy.takes, by simp⟩
  rw [Instruction.plan, ha, Lift.plan, Lift.Plan.anyEqual, hbinary]
  rfl

theorem plan_count {kind : CountKind} (ha : i.row.action = .count kind l)
    (hops : i.operands = [.reg (.d dst), x]) (hx : x.IsWord) :
    i.plan = Lift.emitting (Lift.setCount kind l (.d dst) x.expr) := by
  have hsource : (Lift.Source.of i).operands = [.reg (.d dst), x] := by
    rw [operands_of_values, hops]
    simp only [hops, List.forall_mem_cons]
    exact ⟨rfl, hx.takes, by simp⟩
  have hunary : (Lift.Source.of i).unary = .ok (.d dst, x.expr) := by
    simp only [Lift.Source.unary, Lift.Source.arity, hsource, List.length_cons, List.length_nil,
      Lift.Source.reg_of 0 hsource rfl, Lift.Source.value_of 1 hsource rfl hx.takes]
    rfl
  rw [Instruction.plan, ha, Lift.plan, Lift.Plan.count, hunary]
  rfl

end Instruction

/-! The steps of the three kinds of instructions. -/

namespace Machine

variable {β : Type} [Bus β] {isa : Isa} {m : Machine β} {i : Instruction} {l : Lane}
  (hi : m.instruction? isa = some i)
include hi

theorem step_lanes {op : LaneOp} (ha : i.row.action.lanes? = some (op, l)) :
    ∃ (dst : Nat) (x y : Operand), i.operands.head? = some (.reg (.d dst)) ∧
      Operand.laneSources? i.operands = some (x, y) ∧ (m.step isa).2 = .done ∧
      m.Lanewise op l (x.word m.core) (y.word m.core) dst (m.step isa).1 := by
  obtain ⟨g, hg, hr, raw, addr, hos⟩ := Instruction.resolved hi
  have hshapes := Opcode.lane_rows g hg i.row hr (op, l) ha
  rw [← Instruction.shapes_of_resolved hos] at hshapes
  obtain ⟨dst, x, y, hread, hx, hy⟩ := Instruction.operands_of_lanes hshapes
  have hoperands : i.operands.head? = some (.reg (.d dst)) ∧
      Operand.laneSources? i.operands = some (x, y) := by
    split_ifs at hread
    · obtain ⟨hops, rfl⟩ := hread
      rw [hops]
      exact ⟨rfl, rfl⟩
    · rw [hread]
      exact ⟨rfl, rfl⟩
  refine ⟨dst, x, y, hoperands.1, hoperands.2, ?_⟩
  exact step_of_runs hi (Instruction.plan_lanes ha hread hx hy) fun s _ =>
    Lift.runs_lanes op (hx.yields m i _) (hy.yields m i _) rfl

theorem step_anyEqual (hname : (i.mnemonic, l) ∈ [("eqany.b", Lane.byte), ("eqany.h", .half)]) :
    ∃ (dst : Nat) (x y : Operand), i.operands = [.reg (.d dst), x, y] ∧ (m.step isa).2 = .done ∧
      (m.step isa).1.core.read (.d dst) =
        (if ∃ k < l.count, l.part k (x.word m.core) = l.part k (y.word m.core) then 1 else 0) ∧
      (m.step isa).1.core.psw = m.core.psw := by
  obtain ⟨g, hg, hr, raw, addr, hos⟩ := Instruction.resolved hi
  obtain ⟨ha, rhs, hrhs, hshapes⟩ := Opcode.anyEqual_rows g hg i.row hr _ hname rfl
  rw [← Instruction.shapes_of_resolved hos] at hshapes
  simp only [List.map_eq_cons_iff, List.map_eq_nil_iff] at hshapes
  obtain ⟨o, _, hops, ho, x, _, rfl, hx, y, _, rfl, hy, rfl⟩ := hshapes
  obtain ⟨dst, rfl⟩ := Operand.exists_data ho
  have hx : x.IsWord := .inl hx
  have hy : y.IsWord := by simpa [Operand.IsWord, hy] using hrhs
  refine ⟨dst, x, y, hops, ?_⟩
  exact step_of_runs hi (Instruction.plan_anyEqual ha hops hx hy) fun s _ =>
    Lift.runs_anyEqual (hx.yields m i _) (hy.yields m i _) rfl

theorem step_count {kind : CountKind} (hname : (i.mnemonic, kind, l) ∈ CountKind.named) :
    ∃ (dst : Nat) (x : Operand), i.operands = [.reg (.d dst), x] ∧ (m.step isa).2 = .done ∧
      (∀ k < l.count, (l.part k ((Operand.reg (.d dst)).word (m.step isa).1.core)).toNat =
        kind.count (l.part k (x.word m.core))) ∧
      (m.step isa).1.core.psw = m.core.psw := by
  obtain ⟨g, hg, hr, raw, addr, hos⟩ := Instruction.resolved hi
  obtain ⟨ha, hshapes⟩ := Opcode.count_rows g hg i.row hr _ hname rfl
  rw [← Instruction.shapes_of_resolved hos] at hshapes
  simp only [List.map_eq_cons_iff, List.map_eq_nil_iff] at hshapes
  obtain ⟨o, _, hops, ho, x, _, rfl, hx, rfl⟩ := hshapes
  obtain ⟨dst, rfl⟩ := Operand.exists_data ho
  have hx : x.IsWord := .inl hx
  obtain ⟨hdone, hlanes, hpsw⟩ := step_of_runs hi (Instruction.plan_count ha hops hx) fun s _ =>
    Lift.runs_count kind m (hx.yields m i _) rfl
  refine ⟨dst, x, hops, hdone, fun k hk => ?_, hpsw⟩
  rw [hlanes k hk, BitVec.toNat_ofNat, Nat.mod_eq_of_lt]
  exact (kind.count_le _).trans_lt Nat.lt_two_pow_self

end Machine

/-- Every instruction that works lane by lane does in each lane what its scalar form does, and no
lane has a part in another. -/
theorem lanes_match_scalars {β : Type} [Bus β] (isa : Isa) (m : Machine β) {i : Instruction}
    (hi : m.instruction? isa = some i) :
    (∀ op l, i.row.action.lanes? = some (op, l) →
      ∃ (dst : Nat) (x y : Operand), i.operands.head? = some (.reg (.d dst)) ∧
        Operand.laneSources? i.operands = some (x, y) ∧ (m.step isa).2 = .done ∧
        m.Lanewise op l (x.word m.core) (y.word m.core) dst (m.step isa).1) ∧
    (∀ l, (i.mnemonic, l) ∈ [("eqany.b", Lane.byte), ("eqany.h", .half)] →
      ∃ (dst : Nat) (x y : Operand), i.operands = [.reg (.d dst), x, y] ∧ (m.step isa).2 = .done ∧
        (m.step isa).1.core.read (.d dst) =
          (if ∃ k < l.count, l.part k (x.word m.core) = l.part k (y.word m.core) then 1 else 0) ∧
        (m.step isa).1.core.psw = m.core.psw) ∧
    (∀ kind l, (i.mnemonic, kind, l) ∈ CountKind.named →
      ∃ (dst : Nat) (x : Operand), i.operands = [.reg (.d dst), x] ∧ (m.step isa).2 = .done ∧
        (∀ k < l.count, (l.part k ((Operand.reg (.d dst)).word (m.step isa).1.core)).toNat =
          kind.count (l.part k (x.word m.core))) ∧
        (m.step isa).1.core.psw = m.core.psw) :=
  ⟨fun _ _ ha => Machine.step_lanes hi ha, fun _ hname => Machine.step_anyEqual hi hname,
    fun _ _ hname => Machine.step_count hi hname⟩

/-- `adds.hu d3, d1, d1` saturates in one lane, `eqany.b d3, d1, 1` finds a byte in its place, and
`cls.h d3, d1` counts in each half-word. -/
theorem lanes_match_scalars_halves :
    (((sameWords 0xFFFF0001 [0x0B, 0x11, 0x30, 0x36]).step .v16).1.core.flag .v = true ∧
      Lane.half.part 0 ((Operand.reg (.d 3)).word
        ((sameWords 0xFFFF0001 [0x0B, 0x11, 0x30, 0x36]).step .v16).1.core) = 2 ∧
      Lane.half.part 1 ((Operand.reg (.d 3)).word
        ((sameWords 0xFFFF0001 [0x0B, 0x11, 0x30, 0x36]).step .v16).1.core) = 0xFFFF) ∧
    ((sameWords 0xFFFF0001 [0x8B, 0x11, 0xC0, 0x3A]).step .v16).1.core.read (.d 3) = 1 ∧
    (Lane.half.part 0 ((Operand.reg (.d 3)).word
        ((sameWords 0xFFFF0001 [0x0F, 0x01, 0xE0, 0x37]).step .v16).1.core)).toNat = 14 ∧
      (Lane.half.part 1 ((Operand.reg (.d 3)).word
        ((sameWords 0xFFFF0001 [0x0F, 0x01, 0xE0, 0x37]).step .v16).1.core)).toNat = 15 := by
  refine ⟨?_, ?_, ?_⟩
  · obtain ⟨i, hi, haction, hhead, hsources⟩ :
        ∃ i, (sameWords 0xFFFF0001 [0x0B, 0x11, 0x30, 0x36]).instruction? .v16 = some i ∧
          i.row.action.lanes? = some (.addSat .unsigned, .half) ∧
          i.operands.head? = some (.reg (.d 3)) ∧
          Operand.laneSources? i.operands = some (.reg (.d 1), .reg (.d 1)) :=
      ⟨_, rfl, by decide +kernel, by decide +kernel, by decide +kernel⟩
    obtain ⟨dst, x, y, hdst, hread, -, hm⟩ := (lanes_match_scalars .v16 _ hi).1 _ _ haction
    obtain rfl : dst = 3 := by simpa [hhead, eq_comm] using hdst
    obtain ⟨rfl, rfl⟩ : .reg (.d 1) = x ∧ .reg (.d 1) = y := by simpa [hsources] using hread
    have hstatus := hm.status
    rw [if_pos (by decide)] at hstatus
    exact ⟨hstatus.v.trans (by decide), (hm.lanes 0 (by decide)).trans (by decide),
      (hm.lanes 1 (by decide)).trans (by decide)⟩
  · obtain ⟨i, hi, hname, hoperands⟩ :
        ∃ i, (sameWords 0xFFFF0001 [0x8B, 0x11, 0xC0, 0x3A]).instruction? .v16 = some i ∧
          (i.mnemonic, Lane.byte) ∈ [("eqany.b", Lane.byte), ("eqany.h", .half)] ∧
          i.operands = [.reg (.d 3), .reg (.d 1), .imm 1] :=
      ⟨_, rfl, by decide +kernel, by decide +kernel⟩
    obtain ⟨dst, x, y, hops, -, hresult, -⟩ := (lanes_match_scalars .v16 _ hi).2.1 _ hname
    rw [hoperands] at hops
    obtain ⟨rfl, rfl, rfl⟩ : dst = 3 ∧ .reg (.d 1) = x ∧ .imm 1 = y := by
      simpa [eq_comm] using hops
    rw [hresult]
    exact if_pos ⟨0, by decide, by decide⟩
  · obtain ⟨i, hi, hname, hoperands⟩ :
        ∃ i, (sameWords 0xFFFF0001 [0x0F, 0x01, 0xE0, 0x37]).instruction? .v16 = some i ∧
          (i.mnemonic, CountKind.signs, Lane.half) ∈ CountKind.named ∧
          i.operands = [.reg (.d 3), .reg (.d 1)] :=
      ⟨_, rfl, by decide +kernel, by decide +kernel⟩
    obtain ⟨dst, x, hops, -, hlanes, -⟩ := (lanes_match_scalars .v16 _ hi).2.2 _ _ hname
    rw [hoperands] at hops
    obtain ⟨rfl, rfl⟩ : dst = 3 ∧ .reg (.d 1) = x := by simpa [eq_comm] using hops
    exact ⟨(hlanes 0 (by decide)).trans (by decide), (hlanes 1 (by decide)).trans (by decide)⟩

end Tricore
