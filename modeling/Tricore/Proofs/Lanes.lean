import Mathlib
import Tricore.Proofs.Idioms

/-!
# Lanes

A word is four bytes, two half-words or one word: `Lane.part` takes a lane out of a word and
`Lane.join` puts lanes together. The idioms for lanes yield just these. How many of the top bits of
a lane are alike (`leading`) is counted by counting zeros, of a pattern that has its highest one
where the run of equal bits ends.
-/

namespace Tricore

/-! ## Lanes -/

namespace Lane

variable {l : Lane} {i : Nat}

/-- Lane `i` of a word. -/
def part (l : Lane) (i : Nat) (w : Word) : BitVec l.bits := (w >>> (i * l.bits)).setWidth l.bits

/-- The word with these lanes. -/
def join (l : Lane) (f : Nat → BitVec l.bits) : Word :=
  ((List.range l.count).map fun i => (f i).setWidth 32 <<< (i * l.bits)).foldl (· ||| ·) 0#32

theorem place_le (hi : i < l.count) : i * l.bits + l.bits ≤ 32 := by
  cases l <;> simp only [count, bits, width, Width.bits, Width.bytes] at hi ⊢ <;> omega

theorem getLsbD_foldl_or (ws : List Word) (w : Word) (j : Nat) :
    (ws.foldl (· ||| ·) w).getLsbD j = (w.getLsbD j || ws.any (·.getLsbD j)) := by
  induction ws generalizing w with
  | nil => simp
  | cons v ws ih => rw [List.foldl_cons, ih, List.any_cons, BitVec.getLsbD_or, Bool.or_assoc]

/-- A bit of a lane is in no other lane's way. -/
theorem part_join (f : Nat → BitVec l.bits) (hi : i < l.count) : l.part i (l.join f) = f i := by
  refine BitVec.eq_of_getLsbD_eq fun j hj => ?_
  have hplace := place_le hi
  rw [part, join, BitVec.getLsbD_setWidth, BitVec.getLsbD_ushiftRight, getLsbD_foldl_or,
    decide_eq_true hj, Bool.true_and, BitVec.getLsbD_zero, Bool.false_or, Bool.eq_iff_iff,
    List.any_map, List.any_eq_true]
  constructor
  · rintro ⟨k, -, hk⟩
    simp only [Function.comp, BitVec.getLsbD_shiftLeft, BitVec.getLsbD_setWidth, Bool.and_eq_true,
      decide_eq_true_eq, Bool.not_eq_true', decide_eq_false_iff_not, not_lt] at hk
    obtain ⟨⟨-, hle⟩, -, hbit⟩ := hk
    have hlt := BitVec.lt_of_getLsbD hbit
    obtain rfl : k = i := by
      cases l <;> simp only [bits, width, Width.bits, Width.bytes] at hj hle hlt <;> omega
    rwa [Nat.add_sub_cancel_left] at hbit
  · intro hbit
    refine ⟨i, List.mem_range.2 hi, ?_⟩
    simp only [Function.comp, BitVec.getLsbD_shiftLeft, BitVec.getLsbD_setWidth, hbit,
      Nat.add_sub_cancel_left, Bool.and_true]
    simp
    omega

end Lane

namespace Expr

variable {β : Type} [Bus β] {m : Machine β} {n : Nat} {a : Expr} {l : Lane} {i : Nat}

theorem Yields.lane {x : Word} (ha : a.Yields m n x) (hi : i < l.count) :
    (a.lane l i).Yields m n (l.part i x) := by
  have hplace := Lane.place_le hi
  have hcount : (BitVec.ofNat 64 (i * l.bits)).toNat = i * l.bits := by
    rw [BitVec.toNat_ofNat, Nat.mod_eq_of_lt (by omega)]
  have hpos : 0 < l.bits := by cases l <;> decide
  have hle : l.bits ≤ 32 := by cases l <;> decide
  unfold Expr.lane
  split_ifs with hwidth hzero
  · have hbits := ha.bits
    rw [← hwidth] at hbits
    cases l with
    | byte | half => cases hbits
    | word =>
      obtain rfl : i = 0 := Nat.lt_one_iff.1 hi
      rw [Lane.part, Nat.zero_mul, BitVec.ushiftRight_zero]
      exact (BitVec.setWidth_eq x).symm ▸ ha
  · rw [Lane.part, hzero, BitVec.ushiftRight_zero]
    exact ha.low rfl hle
  · have hshift := ha.lsr_const (c := .ofNat 64 (i * l.bits)) (w := .word) rfl (by omega)
    rw [hcount] at hshift
    exact hshift.low rfl hle

theorem Yields.placed {x : BitVec l.bits} (ha : a.Yields m n x) (hi : i < l.count) :
    (Expr.placed l i a).Yields m n (x.setWidth 32 <<< (i * l.bits)) := by
  have hplace := Lane.place_le hi
  have hpos : 0 < l.bits := by cases l <;> decide
  have hcount : (BitVec.ofNat 64 (i * l.bits)).toNat = i * l.bits := by
    rw [BitVec.toNat_ofNat, Nat.mod_eq_of_lt (by omega)]
  have hword : (a.resize .word).Yields m n (x.setWidth 32) := ha.resize rfl
  unfold Expr.placed
  split_ifs with hzero
  · rwa [hzero, BitVec.shiftLeft_zero]
  · have hshift := hword.shl_const (c := .ofNat 64 (i * l.bits)) (w := .word) rfl (by omega)
    rwa [hcount] at hshift

/-- Words put together by a bitwise or. -/
theorem yields_foldl_or {first : Expr} {rest : List Expr} {w : Word} {ws : List Word}
    (hfirst : first.Yields m n w)
    (hrest : List.Forall₂ (fun e w => e.Yields m n (w : Word)) rest ws) :
    (rest.foldl (.or .word) first).Yields m n (ws.foldl (· ||| ·) w) := by
  induction hrest generalizing first w with
  | nil => exact hfirst
  | cons he _ ih => exact ih (hfirst.or he rfl)

theorem Yields.pack {parts : List Expr} {f : Nat → BitVec l.bits}
    (h : List.Forall₂ (fun i e => e.Yields m n (f i)) (List.range l.count) parts) :
    (Expr.pack l parts).Yields m n (l.join f) := by
  have hplaced : List.Forall₂ (fun e w => e.Yields m n (w : Word)) (parts.mapIdx (Expr.placed l))
      ((List.range l.count).map fun i => (f i).setWidth 32 <<< (i * l.bits)) := by
    obtain ⟨hlength, hget⟩ := List.forall₂_iff_get.1 h
    refine List.forall₂_iff_get.2 ⟨by simpa using hlength.symm, fun i hi hi' => ?_⟩
    have hlt : i < l.count := by simpa using hi'
    have hpart := hget i (by simpa using hlt) (by simpa using hi)
    simp only [List.get_eq_getElem, List.getElem_range, List.getElem_mapIdx,
      List.getElem_map] at hpart ⊢
    exact hpart.placed hlt
  rw [Expr.pack, Lane.join]
  generalize parts.mapIdx (Expr.placed l) = es,
    (List.range l.count).map (fun i => (f i).setWidth 32 <<< (i * l.bits)) = ws at hplaced ⊢
  cases hplaced with
  | nil => exact .const 0 rfl
  | cons hfirst hrest =>
    rw [List.foldl_cons, BitVec.zero_or]
    exact yields_foldl_or hfirst hrest

theorem Decides.any {es : List Expr} {ts : List Bool}
    (h : List.Forall₂ (fun e t => e.Decides m n t) es ts) :
    (Expr.any es).Decides m n (ts.any id) := by
  have hfoldl {first : Expr} {rest : List Expr} {t : Bool} {ts : List Bool}
      (hfirst : first.Decides m n t)
      (hrest : List.Forall₂ (fun e t => e.Decides m n t) rest ts) :
      (rest.foldl (.or .byte) first).Decides m n (t || ts.any id) := by
    induction hrest generalizing first t with
    | nil => simpa using hfirst
    | cons he _ ih => simpa [Bool.or_assoc] using ih (hfirst.or he)
  cases h with
  | nil => exact .const 0 rfl
  | cons hfirst hrest => exact hfoldl hfirst hrest

end Expr

/-! ## Leading bits -/

/-- The greatest number of top bits that are all `p`. -/
def leading (p : Bool) {k : Nat} (x : BitVec k) : Nat :=
  Nat.findGreatest (fun n => ∀ j < n, x.getMsbD j = p) k

/-- How many leading bits are counted. The sign itself does not count. -/
def CountKind.count (kind : CountKind) {k : Nat} (x : BitVec k) : Nat :=
  match kind with
  | zeros => leading false x
  | ones => leading true x
  | signs => leading x.msb x - 1

section Leading

variable {p : Bool} {k n : Nat} {x : BitVec k}

theorem leading_eq_iff : leading p x = n ↔
    n ≤ k ∧ (∀ j < n, x.getMsbD j = p) ∧ (n < k → x.getMsbD n ≠ p) := by
  rw [leading, Nat.findGreatest_eq_iff]
  constructor
  · rintro ⟨hle, hall, hlast⟩
    have hall : ∀ j < n, x.getMsbD j = p := fun j hj => hall (by omega) j hj
    refine ⟨hle, hall, fun hlt hn => hlast (Nat.lt_succ_self n) hlt fun j hj => ?_⟩
    rcases Nat.lt_succ_iff_lt_or_eq.1 hj with hj | rfl
    · exact hall j hj
    · exact hn
  · rintro ⟨hle, hall, hlast⟩
    exact ⟨hle, fun _ => hall, fun j hj hjk hmore => hlast (by omega) (hmore n hj)⟩

theorem leading_not (x : BitVec k) : leading p (~~~x) = leading (!p) x := by
  obtain ⟨hle, hall, hlast⟩ := leading_eq_iff.1 (rfl : leading (!p) x = _)
  refine leading_eq_iff.2 ⟨hle, fun j hj => ?_, fun hlt hn => hlast hlt ?_⟩
  · rw [BitVec.getMsbD_not, hall j hj, decide_eq_true (hj.trans_le hle)]
    simp
  · rw [BitVec.getMsbD_not, decide_eq_true hlt] at hn
    simpa using congrArg Bool.not hn

/-- Zeros are counted as they should be. -/
theorem toNat_clz (x : BitVec k) : x.clz.toNat = leading false x := by
  symm
  have hle : x.clz.toNat ≤ k := by
    have h : x.clz.toNat ≤ k % 2 ^ k := BitVec.clz_le
    exact h.trans (Nat.mod_le _ _)
  refine leading_eq_iff.2 ⟨hle, fun j hj => ?_, fun hlt => ?_⟩
  · have hzero : x.getLsbD (k - 1 - j) = false := by
      have hbound : x.toNat < 2 ^ (k - x.clz.toNat) := BitVec.toNat_lt_two_pow_sub_clz
      exact Nat.testBit_lt_two_pow
        (hbound.trans_le (Nat.pow_le_pow_right (by decide) (by omega)))
    rw [BitVec.getMsbD_eq_getLsbD, hzero, Bool.and_false]
  · have hx : x ≠ 0 := by
      refine BitVec.clz_lt_iff_ne_zero.1 ?_
      show x.clz.toNat < k % 2 ^ k
      rwa [Nat.mod_eq_of_lt Nat.lt_two_pow_self]
    rw [BitVec.getMsbD_eq_getLsbD, decide_eq_true hlt,
      BitVec.getLsbD_true_clz_of_ne_zero (by omega) hx]
    decide

theorem clz_eq (x : BitVec k) : x.clz = BitVec.ofNat k (leading false x) := by
  rw [← toNat_clz, BitVec.ofNat_toNat, BitVec.setWidth_eq]

/-- Where neighbours differ, a run of equal bits ends. -/
theorem leading_neighbours (x : BitVec k) :
    leading false (x ^^^ x.sshiftRight 1) = leading x.msb x := by
  obtain ⟨hle, hall, hlast⟩ := leading_eq_iff.1 (rfl : leading x.msb x = _)
  have hbit (j : Nat) (hj : j < k) : (x ^^^ x.sshiftRight 1).getMsbD j =
      (x.getMsbD j ^^ if j = 0 then x.msb else x.getMsbD (j - 1)) := by
    rw [BitVec.getMsbD_xor, BitVec.getMsbD_sshiftRight, decide_eq_true hj, Bool.true_and]
    simp only [Nat.lt_one_iff]
  refine leading_eq_iff.2 ⟨hle, fun j hj => ?_, fun hlt hn => hlast hlt ?_⟩
  · rw [hbit j (by omega), hall j hj]
    split_ifs
    · exact Bool.xor_self _
    · rw [hall (j - 1) (by omega), Bool.xor_self]
  · rw [hbit _ hlt] at hn
    split_ifs at hn with h0
    · simpa using hn
    · rw [hall (leading x.msb x - 1) (by omega)] at hn
      simpa using hn

theorem leading_msb_pos (hk : 0 < k) (x : BitVec k) : 0 < leading x.msb x := by
  by_contra h
  obtain ⟨-, -, hlast⟩ := leading_eq_iff.1 (Nat.eq_zero_of_not_pos h)
  exact hlast hk (BitVec.msb_eq_getMsbD_zero x).symm

theorem CountKind.count_le (kind : CountKind) (x : BitVec k) : kind.count x ≤ k := by
  cases kind with
  | zeros | ones => exact Nat.findGreatest_le k
  | signs => exact (Nat.sub_le _ _).trans (Nat.findGreatest_le k)

end Leading

namespace Lift

variable {β : Type} [Bus β] {m : Machine β} {n k : Nat} {a : Expr} {w : Width} {x : BitVec k}

theorem yields_clz (ha : a.Yields m n x) (hw : w.bits = k) :
    (Expr.unary .clz w a).Yields m n x.clz := by
  have h : (Expr.unary .clz w a).Yields m n
      ((((x.setWidth 64).setWidth w.bits).clz.setWidth 64).setWidth k) := ha.unary hw
  subst hw
  rwa [ha.back, BitVec.setWidth_setWidth_of_le _ ha.le, BitVec.setWidth_eq] at h

/-- The count of one lane. -/
theorem yields_counted (kind : CountKind) (ha : a.Yields m n x) (hw : w.bits = k) :
    (Plan.counted kind w a).Yields m n (BitVec.ofNat k (kind.count x)) := by
  have hk : 8 ≤ k := by
    rw [← hw]
    cases w <;> decide
  cases kind with
  | zeros => exact clz_eq x ▸ yields_clz ha hw
  | ones =>
    have h := yields_clz (ha.not hw) hw
    rwa [clz_eq, leading_not] at h
  | signs =>
    have hone : (Expr.const w 1).Yields m n (BitVec.ofNat k 1) := by
      have h : (Expr.const w 1).Yields m n ((1 : Value).setWidth k) := .const 1 hw
      rwa [show (1 : Value).setWidth k = BitVec.ofNat k 1 by subst hw; cases w <;> rfl] at h
    have hneighbours := ha.xor (ha.asr_const (c := 1) hw (show 1 < k by omega)) hw
    have h := (yields_clz hneighbours hw).sub hone hw
    rw [show (1 : Value).toNat = 1 from rfl, clz_eq, leading_neighbours,
      BitVec.ofNat_sub_ofNat_of_le _ _ (Nat.one_lt_two_pow (by omega))
        (leading_msb_pos (by omega) x)] at h
    exact h

end Lift

end Tricore
