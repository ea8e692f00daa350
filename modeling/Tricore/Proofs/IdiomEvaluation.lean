import Mathlib
import Tricore.Proofs.Lanes
import Tricore.Proofs.ValueWidths

/-!
# Evaluating the idioms

What the branch-free idioms evaluate to over any sub-expressions that have a value in a state. An
idiom evaluates some of its sub-expressions more than once. Each time they have the same value, so
they can be replaced by constants (`Expr.Alike`), and over constants the idioms mean in every state
what they mean in one.
-/

namespace Tricore

/-! ## Lanes of a word -/

namespace Lane

/-- A word is known by its lanes. -/
theorem eq_of_parts {l : Lane} {x y : Word} (h : ∀ i < l.count, l.part i x = l.part i y) :
    x = y := by
  have hpos : 0 < l.bits := by cases l <;> decide
  have hcount : l.count * l.bits = 32 := by cases l <;> rfl
  -- Bit `j` is bit `j % l.bits` of lane `j / l.bits`.
  have hbit (z : Word) (j : Nat) : (l.part (j / l.bits) z).getLsbD (j % l.bits) = z.getLsbD j := by
    rw [part, BitVec.getLsbD_setWidth, BitVec.getLsbD_ushiftRight, Nat.div_add_mod',
      decide_eq_true (Nat.mod_lt j hpos), Bool.true_and]
  refine BitVec.eq_of_getLsbD_eq fun j hj => ?_
  rw [← hbit x, ← hbit y, h _ (Nat.div_lt_of_lt_mul (by rwa [Nat.mul_comm, hcount]))]

/-- The lanes of a word, put together, are the word. -/
theorem join_part (l : Lane) (x : Word) : l.join (fun i => l.part i x) = x :=
  eq_of_parts fun _ hi => part_join _ hi

end Lane

namespace Expr

variable {β : Type} [Bus β] {m : Machine β} {a a' b b' c c' : Expr} {w : Width} {v : Value}

/-! ## Replacing sub-expressions -/

/-- Two expressions of one width that evaluate alike. -/
structure Alike (m : Machine β) (a b : Expr) : Prop where
  width : a.width = b.width
  eval : a.eval m = b.eval m

namespace Alike

/-- An expression is as good as its value, if that fits. -/
theorem const (h : a.eval m = .ok v) (hfits : a.width.Holds v) : Alike m a (.const a.width v) :=
  ⟨rfl, by rw [h, Expr.eval, hfits.cut_eq le_rfl]⟩

theorem low (h : Alike m a a') (w : Width) : Alike m (.low w a) (.low w a') :=
  ⟨rfl, by simp only [Expr.eval, h.eval]⟩

theorem binary (h : Alike m a a') (op : BinOp) (w : Width) (b : Expr) :
    Alike m (.binary op w a b) (.binary op w a' b) :=
  ⟨rfl, by simp only [Expr.eval, h.eval]⟩

theorem resize (h : Alike m a a') (w : Width) : Alike m (a.resize w) (a'.resize w) := by
  unfold Expr.resize
  rw [h.width]
  split_ifs
  · exact ⟨rfl, by simp only [Expr.zext, Expr.eval, h.eval]⟩
  · exact h.low w
  · exact h

theorem bit (h : Alike m a a') (i : Nat) : Alike m (a.bit i) (a'.bit i) := by
  unfold Expr.bit
  rw [h.width]
  dsimp only
  split_ifs
  · exact (h.low .byte).binary .and .byte _
  · exact ((h.binary .lsr a'.width _).low .byte).binary .and .byte _

theorem lane (h : Alike m a a') (l : Lane) (i : Nat) : Alike m (a.lane l i) (a'.lane l i) := by
  unfold Expr.lane
  rw [h.width]
  split_ifs
  · exact h
  · exact h.low l.width
  · exact (h.binary .lsr .word _).low l.width

theorem placed (h : Alike m a a') (l : Lane) (i : Nat) :
    Alike m (Expr.placed l i a) (Expr.placed l i a') := by
  unfold Expr.placed
  split_ifs
  · exact h.resize .word
  · exact (h.resize .word).binary .shl .word _

theorem foldl_or {first first' : Expr} {rest rest' : List Expr} (h : Alike m first first')
    (hrest : List.Forall₂ (Alike m) rest rest') :
    Alike m (rest.foldl (.or .word) first) (rest'.foldl (.or .word) first') := by
  induction hrest generalizing first first' with
  | nil => exact h
  | cons he _ ih => exact ih ⟨rfl, by simp only [Expr.or, Expr.eval, h.eval, he.eval]⟩

theorem pack {l : Lane} {parts parts' : List Expr} (h : List.Forall₂ (Alike m) parts parts') :
    Alike m (Expr.pack l parts) (Expr.pack l parts') := by
  have hplaced : List.Forall₂ (Alike m) (parts.mapIdx (Expr.placed l))
      (parts'.mapIdx (Expr.placed l)) := by
    obtain ⟨hlength, hget⟩ := List.forall₂_iff_get.1 h
    refine List.forall₂_iff_get.2 ⟨by simpa using hlength, fun i hi hi' => ?_⟩
    have hpart := hget i (by simpa using hi) (by simpa using hi')
    simp only [List.get_eq_getElem, List.getElem_mapIdx] at hpart ⊢
    exact hpart.placed l i
  unfold Expr.pack
  generalize parts.mapIdx (Expr.placed l) = es, parts'.mapIdx (Expr.placed l) = es' at hplaced ⊢
  cases hplaced with
  | nil => exact ⟨rfl, rfl⟩
  | cons hfirst hrest => exact hfirst.foldl_or hrest

theorem compare (ha : a.eval m = a'.eval m) (hb : b.eval m = b'.eval m) (op : CmpOp) (w : Width) :
    Alike m (.compare op w a b) (.compare op w a' b') :=
  ⟨rfl, by simp only [Expr.eval, ha, hb]⟩

/-- Of a choice only the width of the condition matters. -/
theorem select (hc : Alike m c c') (ha : a.eval m = a'.eval m) (hb : b.eval m = b'.eval m) :
    Alike m (Expr.select w c a b) (Expr.select w c' a' b') := by
  refine ⟨rfl, ?_⟩
  simp only [Expr.select, Expr.xor, Expr.and, Expr.neg, Expr.eval, (hc.resize w).eval, ha, hb]

theorem overflow (h : a.eval m = a'.eval m) (s : Sign) :
    Alike m (a.overflow w s) (a'.overflow w s) := by
  refine compare h ?_ .ne .double
  simp only [Expr.eval, h, Expr.width]

theorem saturate (h : a.eval m = a'.eval m) (s : Sign) :
    Alike m (a.saturate w s) (a'.saturate w s) := by
  refine low (select (compare h rfl .slt .double) rfl ?_) w
  exact (select (compare h rfl .sgt .double) rfl h).eval

end Alike

/-! ## Values of the idioms -/

theorem Decides.eval_truth {n : Nat} {t : Bool} (h : a.Decides m n t) :
    a.eval m = .ok (truth t) := by
  rw [h.eval m (.refl m n)]
  cases t <;> rfl

theorem yields_truth (w : Width) (t : Bool) (n : Nat) :
    (Expr.const w (truth t)).Yields m n ((BitVec.ofBool t).setWidth w.bits) := by
  have h : (Expr.const w (truth t)).Yields m n ((truth t).setWidth w.bits) := .const _ rfl
  have htruth : (truth t).setWidth w.bits = (BitVec.ofBool t).setWidth w.bits := by
    cases t <;> cases w <;> rfl
  rwa [htruth] at h

theorem eval_const (hfits : w.Holds v) : (Expr.const w v).eval m = .ok v :=
  congrArg Except.ok (hfits.cut_eq le_rfl)

theorem eval_select {yes no : Expr} {t : Bool} {x y : Value} (hc : c.eval m = .ok (truth t))
    (hyes : yes.eval m = .ok x) (hno : no.eval m = .ok y) (hx : w.Holds x) (hy : w.Holds y) :
    (select w c yes no).eval m = .ok (if t then x else y) := by
  have hselected : (select w (.const c.width (truth t)) (.const w x) (.const w y)).Yields m 0
      (if t then x.setWidth w.bits else y.setWidth w.bits) :=
    .select_by (yields_truth c.width t 0) (by cases c.width <;> decide) (.const x rfl)
      (.const y rfl) rfl
  have hsame := Alike.select (w := w) (.const hc (Width.holds_truth c.width t))
    (hyes.trans (eval_const hx).symm) (hno.trans (eval_const hy).symm)
  rw [hsame.eval, hselected.eval m (.refl m 0)]
  cases t with
  | false => exact congrArg Except.ok (hy.cut_eq le_rfl)
  | true => exact congrArg Except.ok (hx.cut_eq le_rfl)

/-- Bit `i` of a value that fits its width. -/
theorem eval_bit_of_holds {i : Nat} (h : a.eval m = .ok v) (hfits : a.width.Holds v)
    (hi : i < a.width.bits) : (a.bit i).eval m = .ok (truth (v.getLsbD i)) := by
  have hbit : ((Expr.const a.width v).bit i).Decides m 0 ((v.setWidth a.width.bits).getLsbD i) :=
    Yields.bit (.const v rfl) hi
  rw [((Alike.const h hfits).bit i).eval, hbit.eval_truth, BitVec.getLsbD_setWidth,
    decide_eq_true hi, Bool.true_and]

theorem eval_shl_one (h : a.eval m = .ok v) :
    (Expr.shl a.width a (.const a.width 1)).eval m = .ok (a.width.cut (v <<< 1)) := by
  have hone : (Expr.const a.width 1).eval m = .ok 1 :=
    eval_const (by unfold Width.Holds; cases a.width <;> decide)
  have hcount : ¬ a.width.bits ≤ (1 : Value).toNat := by cases a.width <;> decide
  rw [Expr.shl, Expr.eval, h, hone]
  simp only [bind, Except.bind, BinOp.apply, if_neg hcount]
  rfl

/-- The advanced overflow is the exclusive or of the two top bits, whatever is above them. -/
theorem eval_advanced (h : a.eval m = .ok v) :
    a.advanced.eval m =
      .ok (truth (v.getLsbD (a.width.bits - 1) ^^ v.getLsbD (a.width.bits - 2))) := by
  have hbits : 8 ≤ a.width.bits := by cases a.width <;> decide
  have hle := Width.bits_le a.width
  have hmixed : (Expr.xor a.width a (.shl a.width a (.const a.width 1))).eval m =
      .ok (a.width.cut (v ^^^ a.width.cut (v <<< 1))) := by
    rw [Expr.xor, Expr.eval, h, eval_shl_one h]
    rfl
  have htop : (a.width.cut (v ^^^ a.width.cut (v <<< 1))).getLsbD (a.width.bits - 1) =
      (v.getLsbD (a.width.bits - 1) ^^ v.getLsbD (a.width.bits - 2)) := by
    simp only [Width.getLsbD_cut, BitVec.getLsbD_xor, BitVec.getLsbD_shiftLeft,
      show a.width.bits - 1 < a.width.bits by omega, show a.width.bits - 1 < 64 by omega,
      show ¬ a.width.bits - 1 < 1 by omega, show a.width.bits - 1 - 1 = a.width.bits - 2 by omega,
      decide_true, decide_false, Bool.not_false, Bool.true_and]
  rw [← htop]
  exact eval_bit_of_holds hmixed (Width.holds_cut ..) (Nat.sub_lt (by omega) Nat.one_pos)

theorem eval_overflow {z : Value} (h : a.eval m = .ok z) (hw : w ≠ .double) (s : Sign) :
    (a.overflow w s).eval m = .ok (truth (decide (¬ s.Fits w z.toInt))) := by
  have hz : a.eval m = (Expr.const .double z).eval m :=
    h.trans (eval_const (Width.holds_double z)).symm
  rw [(Alike.overflow hz s).eval]
  exact Decides.eval_truth ((Yields.const_double (n := 0) z).overflow hw)

theorem eval_saturate {z : Value} (h : a.eval m = .ok z) (hw : w ≠ .double) (s : Sign) :
    ∃ x, (a.saturate w s).eval m = .ok x ∧ (x.toNat : Int) = s.clamp w z.toInt % 2 ^ w.bits := by
  have hz : a.eval m = (Expr.const .double z).eval m :=
    h.trans (eval_const (Width.holds_double z)).symm
  rw [(Alike.saturate hz s).eval]
  refine ⟨_, ((Yields.const_double (n := 0) z).saturate hw).eval m (.refl m 0), ?_⟩
  rw [BitVec.toNat_setWidth_of_le (Width.bits_le w), BitVec.toNat_ofInt, Int.toNat_of_nonneg]
  · norm_cast
  · exact Int.emod_nonneg _ (by positivity)

theorem eval_pack_lanes (l : Lane) (hword : a.width = .word) (h : a.eval m = .ok v)
    (hfits : v.toNat < 2 ^ 32) :
    (pack l ((List.range l.count).map (a.lane l))).eval m = .ok v := by
  have hconst : Alike m a (.const a.width v) := .const h (by rwa [hword])
  have hyields : (Expr.const a.width v).Yields m 0 (v.setWidth 32) := .const v (by rw [hword]; rfl)
  have hsame : List.Forall₂ (Alike m) ((List.range l.count).map (a.lane l))
      ((List.range l.count).map ((Expr.const a.width v).lane l)) := by
    rw [List.forall₂_map_left_iff, List.forall₂_map_right_iff]
    exact List.forall₂_same.2 fun i _ => hconst.lane l i
  have hlanes : List.Forall₂ (fun i e => e.Yields m 0 (l.part i (v.setWidth 32)))
      (List.range l.count) ((List.range l.count).map ((Expr.const a.width v).lane l)) := by
    rw [List.forall₂_map_right_iff]
    exact List.forall₂_same.2 fun i hi => hyields.lane (List.mem_range.1 hi)
  have hpacked := Yields.pack hlanes
  rw [Lane.join_part] at hpacked
  rw [(Alike.pack hsame).eval, hpacked.eval m (.refl m 0)]
  exact congrArg Except.ok (Width.Holds.cut_eq (w := .word) hfits le_rfl)

end Expr

/-- The branch-free idioms mean what they say, in every state and over all sub-expressions that have
a value there. A choice by a 0/1 condition of any width is the one or the other of two values that
fit. Of a value read as a signed 64-bit number, the overflow tells if it is outside the limits of a
narrower width, and the saturation is the number clamped to these limits, modulo the width. The
advanced overflow is the exclusive or of the two top bits. The lanes of a word, packed, are the word
again. -/
theorem idioms_evaluate {β : Type} [Bus β] (m : Machine β) :
    (∀ (w : Width) (c yes no : Expr) (t : Bool) (x y : Value), c.eval m = .ok (truth t) →
      yes.eval m = .ok x → no.eval m = .ok y → x.toNat < 2 ^ (8 * w.bytes) →
      y.toNat < 2 ^ (8 * w.bytes) →
      (Expr.select w c yes no).eval m = .ok (if t then x else y)) ∧
    (∀ (wide : Expr) (z : Value) (w : Width) (s : Sign), wide.eval m = .ok z → w ≠ .double →
      (wide.overflow w s).eval m =
        .ok (truth (decide (z.toInt < (s.limits w).1 ∨ (s.limits w).2 < z.toInt))) ∧
      ∃ x, (wide.saturate w s).eval m = .ok x ∧
        (x.toNat : Int) = max (s.limits w).1 (min z.toInt (s.limits w).2) % 2 ^ w.bits) ∧
    (∀ (r : Expr) (v : Value), r.eval m = .ok v → r.advanced.eval m =
      .ok (truth (v.getLsbD (r.width.bits - 1) ^^ v.getLsbD (r.width.bits - 2)))) ∧
    ∀ (e : Expr) (v : Value) (l : Lane), e.width = .word → e.eval m = .ok v → v.toNat < 2 ^ 32 →
      (Expr.pack l ((List.range l.count).map (e.lane l))).eval m = .ok v := by
  refine ⟨fun w c yes no t x y hc hyes hno hx hy => Expr.eval_select hc hyes hno hx hy,
    fun wide z w s h hw => ⟨?_, Expr.eval_saturate h hw s⟩, fun r v h => Expr.eval_advanced h,
    fun e v l hword h hfits => Expr.eval_pack_lanes l hword h hfits⟩
  have houtside : ¬ s.Fits w z.toInt ↔ z.toInt < (s.limits w).1 ∨ (s.limits w).2 < z.toInt := by
    unfold Sign.Fits
    omega
  rw [Expr.eval_overflow h hw s, decide_eq_decide.2 houtside]

/-- A core with the least word in a register. -/
def leastWord : Machine Window := ⟨Core.write {} (.d 0) 0x80000000, { base := 0, size := 0 }⟩

theorem idioms_evaluate_least :
    (Expr.select .half (.compare .slt .word (.reg (.d 0)) (.const .word 0)) (.const .half 7)
        (.const .word 8)).eval leastWord = .ok 7 ∧
    (Expr.overflow (.sext .double (.reg (.d 0))) .half .signed).eval leastWord = .ok 1 ∧
    (∃ x, (Expr.saturate (.sext .double (.reg (.d 0))) .half .signed).eval leastWord = .ok x ∧
      (x.toNat : Int) = -0x8000 % 2 ^ 16) ∧
    (Expr.advanced (.reg (.d 0))).eval leastWord = .ok 1 ∧
    (Expr.pack .byte ((List.range 4).map (Expr.lane (.reg (.d 0)) .byte))).eval leastWord =
      .ok 0x80000000 := by
  obtain ⟨hselect, hwide, hadvanced, hpack⟩ := idioms_evaluate leastWord
  obtain ⟨hoverflow, hsaturate⟩ := hwide (.sext .double (.reg (.d 0))) 0xFFFFFFFF80000000 .half
    .signed rfl (by decide)
  exact ⟨hselect _ _ _ _ true 7 8 rfl rfl rfl (by decide) (by decide), hoverflow, hsaturate,
    hadvanced _ 0x80000000 rfl, hpack _ _ .byte rfl rfl (by decide)⟩

end Tricore
