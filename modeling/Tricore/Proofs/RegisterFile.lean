import Mathlib
import Tricore.Proofs.ExactResults
import Tricore.Proofs.Frame
import Tricore.Proofs.Resources
import Tricore.Proofs.Sums

/-!
# The register file as a store

Registers overlap: a pair has the bits of its two halves, and some special function registers are
views of other registers. `Register.Shares` is the sharing of bits that follows from these facts.
Over any writes the register file is a store of such bits (`registers_remember`): a write is read
back, it reaches exactly the bits that are shared with its register, and no view ever gets a place
of its own.

Behind the sharing is where bits are stored: `Register.spot` is a cell and a bit of it, and bits are
shared exactly if they have the same spot.
-/

namespace Tricore

namespace Register

/-- A bit of a register is a bit of the pair that the register is a half of, or of the register that
it views. -/
inductive Part : Register × Nat → Register × Nat → Prop where
  | low {pair lo hi : Register} {i : Nat} (h : pair.halves? = some (lo, hi)) (hlt : i < 32) :
    Part (lo, i) (pair, i)
  | high {pair lo hi : Register} {i : Nat} (h : pair.halves? = some (lo, hi)) (hlt : i < 32) :
    Part (hi, i) (pair, 32 + i)
  | view {offset : BitVec 16} {r : Register} {i : Nat} (h : viewed? offset = some r)
    (hlt : i < 32) : Part (.csfr offset, i) (r, i)

/-- Two bits of registers are one bit of storage. -/
def Shares : Register × Nat → Register × Nat → Prop := Relation.EqvGen Part

end Register

namespace CsfrFile

/-- The offsets that have a place in the file. -/
def offsets (file : CsfrFile) : List (BitVec 16) := file.map Prod.fst

end CsfrFile

namespace Core

/-- The core after some writes. -/
def writes (c : Core) (ws : List (Register × Value)) : Core :=
  ws.foldl (fun c w => c.write w.1 w.2) c

/-- No write reaches this bit of a register. -/
def Spared (ws : List (Register × Value)) (x : Register) (j : Nat) : Prop :=
  ∀ w ∈ ws, ∀ i < w.1.width.bits, ¬ Register.Shares (w.1, i) (x, j)

/-- After these writes, the register file has kept what it was given. -/
structure Remembers (c : Core) (ws : List (Register × Value)) : Prop where
  own : ∀ (r : Register) (v : Value),
    (((c.writes ws).write r v).read r).toNat = v.toNat % 2 ^ (8 * r.width.bytes)
  shared : ∀ (r x : Register) (v : Value) (i j : Nat), i < r.width.bits →
    Register.Shares (r, i) (x, j) →
    (((c.writes ws).write r v).read x).getLsbD j = v.getLsbD i
  others : ∀ (r x : Register) (v : Value) (j : Nat), r.Present → x.Present → j < x.width.bits →
    (∀ i < r.width.bits, ¬ Register.Shares (r, i) (x, j)) →
    (((c.writes ws).write r v).read x).getLsbD j = ((c.writes ws).read x).getLsbD j
  apart : ∀ (r x : Register) (v : Value), r.Present → x.Present →
    ((c.writes ws).write r v).read x ≠ (c.writes ws).read x →
    ∃ i < r.width.bits, ∃ j < x.width.bits, Register.Shares (r, i) (x, j)
  last : ∀ (before after : List (Register × Value)) (r x : Register) (v : Value) (i j : Nat),
    ws = before ++ (r, v) :: after → x.Present → i < r.width.bits → j < x.width.bits →
    Register.Shares (r, i) (x, j) → Spared after x j →
    ((c.writes ws).read x).getLsbD j = v.getLsbD i
  first : ∀ (x : Register) (j : Nat), x.Present → j < x.width.bits → Spared ws x j →
    ((c.writes ws).read x).getLsbD j = (c.read x).getLsbD j
  views : ∀ offset ∈ (c.writes ws).csfr.offsets, Register.viewed? offset ≠ none →
    offset ∈ c.csfr.offsets
  located : ∀ (r : Register) (n : Nat), r = .d n ∨ r = .a n →
    ((c.writes ws).read r).toNat = ((c.writes ws).read r.location.container).toNat /
      2 ^ (8 * r.location.offset) % 2 ^ (8 * r.location.size)

end Core

/-! ## Where bits are stored -/

namespace Register

variable {r x : Register} {i j : Nat} {offset : BitVec 16}

/-- The cell that stores a bit of a register, and which of its bits that is. -/
def spot (r : Register) (i : Nat) : Register × Nat :=
  match r.canonical with
  | .d n => (.d (n % 16), i)
  | .a n => (.a (n % 16), i)
  | .e n => if i < 32 then (.d (n % 16), i) else (.d ((n + 1) % 16), i - 32)
  | .p n => if i < 32 then (.a (n % 16), i) else (.a ((n + 1) % 16), i - 32)
  | r => (r, i)

theorem isCell_of_viewed? (h : viewed? offset = some r) : r.IsCell ∧ r.width = .word := by
  simp only [viewed?] at h
  split_ifs at h <;> cases h <;> refine ⟨?_, rfl⟩ <;> simp only [IsCell] <;> omega

theorem canonical_of_viewed? (h : viewed? offset = some r) : (csfr offset).canonical = r := by
  simp [canonical, h]

theorem width_canonical (r : Register) : r.canonical.width = r.width := by
  cases r with
  | csfr offset =>
    cases hv : viewed? offset with
    | none => simp [canonical, hv]
    | some r => rw [canonical_of_viewed? hv, (isCell_of_viewed? hv).2]; rfl
  | _ => rfl

theorem spot_canonical (r : Register) (i : Nat) : r.canonical.spot i = r.spot i := by
  simp only [spot, canonical_canonical]

theorem cells_canonical (r : Register) : r.canonical.cells = r.cells := by
  simp only [cells, canonical_canonical]

theorem spot_of_isCell (h : r.IsCell) (i : Nat) : r.spot i = (r, i) := by
  rw [spot, canonical_of_isCell h]
  cases r with
  | d n | a n =>
    have hmod : n % 16 = n := Nat.mod_eq_of_lt h
    simp only [hmod]
  | e | p => exact h.elim
  | _ => rfl

theorem spot_of_part {p q : Register × Nat} (h : Part p q) : p.1.spot p.2 = q.1.spot q.2 := by
  cases h with
  | @low pair lo hi i h hlt =>
    cases pair with
    | e n | p n => cases h; exact (if_pos hlt).symm
    | _ => cases h
  | @high pair lo hi i h hlt =>
    have hup : ¬ 32 + i < 32 := by omega
    cases pair with
    | e n | p n =>
      cases h
      simp only [spot, canonical, if_neg hup, Nat.add_sub_cancel_left]
    | _ => cases h
  | view h hlt =>
    rw [← spot_canonical (csfr _), canonical_of_viewed? h]

theorem spot_of_shares (h : Shares (r, i) (x, j)) : r.spot i = x.spot j := by
  suffices ∀ p q, Relation.EqvGen Part p q → p.1.spot p.2 = q.1.spot q.2 from this _ _ h
  intro p q h
  induction h with
  | rel _ _ h => exact spot_of_part h
  | refl => rfl
  | symm _ _ _ ih => exact ih.symm
  | trans _ _ _ _ _ ih ih' => exact ih.trans ih'

/-- A register that is there shares its bits with the cells that store them. -/
theorem shares_spot (h : r.Present) (hi : i < r.width.bits) : Shares (r, i) (r.spot i) := by
  cases r with
  | d n =>
    rw [spot_of_isCell (r := .d n) h]
    exact .refl _
  | a n =>
    rw [spot_of_isCell (r := .a n) h]
    exact .refl _
  | e n | p n =>
    obtain ⟨hlt, heven⟩ := h
    have hbits : i < 64 := hi
    simp only [spot, canonical, Nat.mod_eq_of_lt hlt, Nat.mod_eq_of_lt (show n + 1 < 16 by omega)]
    split_ifs with hlow
    · exact .symm _ _ (.rel _ _ (.low rfl hlow))
    · obtain ⟨k, rfl⟩ := Nat.exists_eq_add_of_le (Nat.le_of_not_lt hlow)
      rw [Nat.add_sub_cancel_left]
      exact .symm _ _ (.rel _ _ (.high rfl (by omega)))
  | csfr offset =>
    cases hv : viewed? offset with
    | none =>
      rw [spot_of_isCell (r := .csfr offset) hv]
      exact .refl _
    | some x =>
      rw [← spot_canonical, canonical_of_viewed? hv, spot_of_isCell (isCell_of_viewed? hv).1]
      exact .rel _ _ (.view hv hi)
  | _ => exact .refl _

theorem shares_of_spot (hr : r.Present) (hx : x.Present) (hi : i < r.width.bits)
    (hj : j < x.width.bits) (h : r.spot i = x.spot j) : Shares (r, i) (x, j) :=
  .trans _ _ _ (shares_spot hr hi) (h ▸ .symm _ _ (shares_spot hx hj))

theorem isCell_canonical_csfr (offset : BitVec 16) : (csfr offset).canonical.IsCell := by
  cases hv : viewed? offset with
  | none => rwa [canonical_of_isCell (r := .csfr offset) hv]
  | some x =>
    rw [canonical_of_viewed? hv]
    exact (isCell_of_viewed? hv).1

theorem isCell_of_mem_cells (h : x ∈ r.cells) : x.IsCell := by
  have hlt (n : Nat) : n % 16 < 16 := Nat.mod_lt n (by decide)
  cases r with
  | csfr offset =>
    have hcell := isCell_canonical_csfr offset
    rw [← cells_canonical, cells_of_isCell hcell] at h
    rwa [List.mem_singleton.1 h]
  | d n | a n => rw [List.mem_singleton.1 h]; exact hlt n
  | e n | p n =>
    obtain rfl | rfl := List.mem_pair.1 h
    · exact hlt n
    · exact hlt (n + 1)
  | _ => rw [List.mem_singleton.1 h]; trivial

theorem spot_mem_cells (r : Register) (i : Nat) : (r.spot i).1 ∈ r.cells := by
  unfold spot cells
  cases r.canonical with
  | e n | p n => dsimp only; split_ifs <;> simp
  | _ => simp

/-- Each bit of each cell of a register stores one of its bits. -/
theorem exists_spot (hx : x ∈ r.cells) (hj : j < x.width.bits) :
    ∃ i < r.width.bits, r.spot i = (x, j) := by
  rw [← width_canonical]
  unfold spot
  unfold cells at hx
  cases hr : r.canonical with
  | d n | a n =>
    rw [hr, List.mem_singleton] at hx
    subst hx
    exact ⟨j, hj, rfl⟩
  | e n | p n =>
    rw [hr] at hx
    obtain rfl | rfl := List.mem_pair.1 hx
    · have hword : j < 32 := hj
      exact ⟨j, show j < 64 by omega, if_pos hword⟩
    · have hword : j < 32 := hj
      refine ⟨32 + j, show 32 + j < 64 by omega, ?_⟩
      simp
  | _ =>
    rw [hr, List.mem_singleton] at hx
    subst hx
    exact ⟨j, hj, rfl⟩

theorem spot_lt (hi : i < r.width.bits) : (r.spot i).2 < (r.spot i).1.width.bits := by
  rw [← width_canonical] at hi
  unfold spot
  generalize r.canonical = r at hi ⊢
  cases r with
  | e n | p n =>
    have hbits : i < 64 := hi
    dsimp only
    split_ifs with hlow
    · exact hlow
    · show i - 32 < 32
      omega
  | _ => exact hi

end Register

/-! ## Reading and writing -/

namespace CsfrFile

theorem get_set_self (file : CsfrFile) (offset : BitVec 16) (v : Word) :
    (file.set offset v).get offset = v := by
  fun_induction CsfrFile.set file offset v with
  | case1 | case2 | case3 => simp [get]
  | case4 first old rest offset value _ hne ih =>
    simp only [get, List.lookup_cons] at ih ⊢
    rwa [beq_eq_false_iff_ne.2 hne]

theorem mem_offsets_set {file : CsfrFile} {offset other : BitVec 16} {v : Word}
    (h : other ∈ (file.set offset v).offsets) : other = offset ∨ other ∈ file.offsets := by
  fun_induction CsfrFile.set file offset v with
  | case1 => exact .inl (List.mem_singleton.1 h)
  | case2 => simpa [offsets] using h
  | case3 first old rest value hlt =>
    rcases List.mem_cons.1 h with h | h
    · exact .inl h
    · exact .inr (List.mem_cons_of_mem _ h)
  | case4 first old rest offset value _ hne ih =>
    rcases List.mem_cons.1 h with h | h
    · exact .inr (h ▸ List.mem_cons_self)
    · exact (ih h).imp_right (List.mem_cons_of_mem _)

end CsfrFile

namespace Core

open Register (spot)

variable {c : Core} {r x : Register} {v : Value} {i j : Nat} {ws : List (Register × Value)}

theorem read_write_p (c : Core) (n : Nat) (v : Value) : (c.write (.p n) v).read (.p n) = v := by
  have hne : (n + 1) % 16 ≠ n % 16 := by omega
  simpa [read, write, setA, Register.canonical, Vector.get_eq_getElem, hne] using append_halves v

theorem write_canonical (c : Core) (r : Register) (v : Value) :
    c.write r.canonical v = c.write r v := by
  simp only [write, Register.canonical_canonical]

/-- What is written to a register is read back, as much of it as the register holds. -/
theorem read_write_own (c : Core) (r : Register) (v : Value) :
    (c.write r v).read r = r.width.cut v := by
  rw [← write_canonical, ← read_canonical, ← r.width_canonical]
  have hself := r.canonical_canonical
  generalize r.canonical = r at hself ⊢
  cases r with
  | d n => exact read_write_d c n v
  | a n => exact read_write_a c n v
  | e n => rw [read_write_e]; exact (Width.cut_double v).symm
  | p n => rw [read_write_p]; exact (Width.cut_double v).symm
  | csfr offset =>
    simp only [read, write, hself, CsfrFile.get_set_self]
    rfl
  | temp n =>
    simp only [read, write, Register.canonical, List.lookup_cons, beq_self_eq_true]
    rfl
  | tempWide n =>
    simp only [read, write, Register.canonical, List.lookup_cons, beq_self_eq_true]
    exact (Width.cut_double v).symm
  | _ => rfl

theorem getLsbD_word (w : Word) (i : Nat) : (w.setWidth 64).getLsbD i = w.getLsbD i := by
  rw [BitVec.getLsbD_setWidth]
  by_cases hi : i < 64
  · simp [hi]
  · simp [hi, BitVec.getLsbD_of_ge w i (by omega)]

theorem getLsbD_pair (high low : Word) (i : Nat) :
    BitVec.getLsbD (w := 64) (high ++ low) i =
      if i < 32 then low.getLsbD i else high.getLsbD (i - 32) :=
  BitVec.getLsbD_append

/-- A bit of a register is read where it is stored. -/
theorem getLsbD_read_spot (c : Core) (r : Register) (i : Nat) :
    (c.read r).getLsbD i = (c.read (r.spot i).1).getLsbD (r.spot i).2 := by
  have hindex (n : Nat) : Fin.ofNat 16 (n % 16) = Fin.ofNat 16 n := Fin.ext (Nat.mod_mod n 16)
  rw [← read_canonical, ← r.spot_canonical]
  have hself := r.canonical_canonical
  generalize r.canonical = r at hself ⊢
  cases r with
  | d n | a n => simp only [spot, read, Register.canonical, hindex]
  | e n | p n =>
    simp only [spot, Register.canonical]
    refine (getLsbD_pair _ _ i).trans ?_
    split_ifs <;> simp only [read, Register.canonical, hindex, getLsbD_word]
  | csfr offset => simp only [spot, hself]
  | _ => rfl

/-- Two bits with the same spot are read alike. -/
theorem getLsbD_read_of_spot (c : Core) (h : r.spot i = x.spot j) :
    (c.read x).getLsbD j = (c.read r).getLsbD i := by
  rw [getLsbD_read_spot c x, ← h, ← getLsbD_read_spot]

theorem getLsbD_cut (w : Width) (v : Value) (h : i < w.bits) :
    (w.cut v).getLsbD i = v.getLsbD i := by
  have hle := Width.bits_le w
  simp only [Width.cut, BitVec.getLsbD_setWidth, h, show i < 64 by omega, decide_true,
    Bool.true_and]

theorem getLsbD_write_of_shares (c : Core) (v : Value) (hi : i < r.width.bits)
    (h : Register.Shares (r, i) (x, j)) : ((c.write r v).read x).getLsbD j = v.getLsbD i := by
  rw [getLsbD_read_of_spot _ (Register.spot_of_shares h), read_write_own, getLsbD_cut _ _ hi]

/-- Where no bit of a register is stored, a write to it changes nothing. -/
theorem getLsbD_write_of_not_mem (c : Core) (v : Value) (h : (x.spot j).1 ∉ r.cells) :
    ((c.write r v).read x).getLsbD j = (c.read x).getLsbD j := by
  have hcell := Register.isCell_of_mem_cells (x.spot_mem_cells j)
  rw [getLsbD_read_spot, read_write hcell h, ← getLsbD_read_spot]

theorem getLsbD_write_of_not_shares (c : Core) (v : Value) (hr : r.Present) (hx : x.Present)
    (hj : j < x.width.bits) (h : ∀ i < r.width.bits, ¬ Register.Shares (r, i) (x, j)) :
    ((c.write r v).read x).getLsbD j = (c.read x).getLsbD j := by
  refine getLsbD_write_of_not_mem c v fun hmem => ?_
  obtain ⟨i, hi, hspot⟩ := Register.exists_spot hmem (Register.spot_lt hj)
  exact h i hi (Register.shares_of_spot hr hx hi hj hspot)

theorem shares_of_read_ne (c : Core) (v : Value) (hr : r.Present) (hx : x.Present)
    (h : (c.write r v).read x ≠ c.read x) :
    ∃ i < r.width.bits, ∃ j < x.width.bits, Register.Shares (r, i) (x, j) := by
  by_contra hnone
  refine h (BitVec.eq_of_getLsbD_eq fun j _ => getLsbD_write_of_not_mem c v fun hmem => ?_)
  -- A cell that both registers have stores a bit of each.
  have hpos : 0 < (x.spot j).1.width.bits := by cases (x.spot j).1.width <;> decide
  obtain ⟨i, hi, hspot⟩ := Register.exists_spot hmem hpos
  obtain ⟨k, hk, hspot'⟩ := Register.exists_spot (x.spot_mem_cells j) hpos
  exact hnone ⟨i, hi, k, hk, Register.shares_of_spot hr hx hi hk (hspot.trans hspot'.symm)⟩

/-! ## A run of writes -/

theorem getLsbD_writes_of_spared (c : Core) (hws : ∀ w ∈ ws, w.1.Present) (hx : x.Present)
    (hj : j < x.width.bits) (h : Spared ws x j) :
    ((c.writes ws).read x).getLsbD j = (c.read x).getLsbD j := by
  induction ws generalizing c with
  | nil => rfl
  | cons w ws ih =>
    refine (ih (c.write w.1 w.2) (fun w' hw => hws w' (by simp [hw]))
      fun w' hw => h w' (by simp [hw])).trans ?_
    exact getLsbD_write_of_not_shares c w.2 (hws w (by simp)) hx hj (h w (by simp))

/-- A register that is written to has a place among the special function registers only if it is
no view. -/
theorem offsets_write {offset : BitVec 16} (h : offset ∈ (c.write r v).csfr.offsets)
    (hview : Register.viewed? offset ≠ none) : offset ∈ c.csfr.offsets := by
  rw [← write_canonical] at h
  have hself := r.canonical_canonical
  generalize r.canonical = r at h hself
  cases r with
  | csfr other =>
    have hcell : (Register.csfr other).IsCell := hself ▸ Register.isCell_canonical_csfr other
    simp only [write, hself] at h
    rcases CsfrFile.mem_offsets_set h with rfl | h
    · exact absurd hcell hview
    · exact h
  | _ => exact h

theorem offsets_writes {offset : BitVec 16} (h : offset ∈ (c.writes ws).csfr.offsets)
    (hview : Register.viewed? offset ≠ none) : offset ∈ c.csfr.offsets := by
  induction ws generalizing c with
  | nil => exact h
  | cons w ws ih => exact offsets_write (ih h) hview

theorem toNat_pair (high low : Word) :
    BitVec.toNat (w := 64) (high ++ low) = 2 ^ 32 * high.toNat + low.toNat := by
  refine (BitVec.toNat_append high low).trans ?_
  rw [← Nat.shiftLeft_add_eq_or_of_lt low.isLt, Nat.shiftLeft_eq, Nat.mul_comm]

/-- A half lies in its pair where its location says. -/
theorem read_location (c : Core) {n : Nat} (h : r = .d n ∨ r = .a n) :
    (c.read r).toNat = (c.read r.location.container).toNat /
      2 ^ (8 * r.location.offset) % 2 ^ (8 * r.location.size) := by
  have hlow (high low : Word) :
      low.toNat = BitVec.toNat (w := 64) (high ++ low) / 2 ^ 0 % 2 ^ 32 := by
    have hlt := low.isLt
    rw [toNat_pair]
    omega
  have hhigh (high low : Word) :
      high.toNat = BitVec.toNat (w := 64) (high ++ low) / 2 ^ 32 % 2 ^ 32 := by
    have hlt := high.isLt
    have hlt' := low.isLt
    rw [toNat_pair]
    omega
  have hword (w : Word) : (w.setWidth 64).toNat = w.toNat := BitVec.toNat_setWidth_of_le (by decide)
  rcases Nat.mod_two_eq_zero_or_one n with hn | hn
  · rcases h with rfl | rfl <;> rw [Register.location, hn] <;> exact (hword _).trans (hlow _ _)
  · obtain ⟨k, rfl⟩ : ∃ k, n = k + 1 := ⟨n - 1, by omega⟩
    rcases h with rfl | rfl <;> rw [Register.location, hn] <;> exact (hword _).trans (hhigh _ _)

end Core

/-- After any writes the register file reads, bit for bit, as what was last written. -/
theorem registers_remember (c : Core) (ws : List (Register × Value))
    (hws : ∀ w ∈ ws, w.1.Present) : c.Remembers ws where
  own r v := by
    rw [Core.read_write_own, Width.cut, BitVec.toNat_setWidth_of_le (Width.bits_le _),
      BitVec.toNat_setWidth]
    rfl
  shared r x v i j hi h := Core.getLsbD_write_of_shares _ v hi h
  others r x v j hr hx hj h := Core.getLsbD_write_of_not_shares _ v hr hx hj h
  apart r x v hr hx h := Core.shares_of_read_ne _ v hr hx h
  last before after r x v i j hsplit hx hi hj hshares hspared := by
    subst hsplit
    have hafter : ∀ w ∈ after, w.1.Present := fun w hw => hws w (by simp [hw])
    rw [Core.writes, List.foldl_append, List.foldl_cons]
    exact (Core.getLsbD_writes_of_spared _ hafter hx hj hspared).trans
      (Core.getLsbD_write_of_shares _ v hi hshares)
  first x j hx hj hspared := Core.getLsbD_writes_of_spared c hws hx hj hspared
  views offset h hview := Core.offsets_writes h hview
  located r n hr := Core.read_location _ hr

/-- A pair of data registers, and then its upper half through the special function register that
views it. -/
def pairThenView : List (Register × Value) :=
  [(.e 4, 0x1111222233334444), (.csfr 0xFF14, 0xAAAABBBB)]

/-- The pair keeps its lower half. -/
theorem registers_remember_view : (∀ w ∈ pairThenView, w.1.Present) ∧ ∀ i < 32,
    ((Core.writes {} pairThenView).read (.e 4)).getLsbD (32 + i) =
        BitVec.getLsbD (w := 64) 0xAAAABBBB i ∧
      ((Core.writes {} pairThenView).read (.e 4)).getLsbD i =
        BitVec.getLsbD (w := 64) 0x1111222233334444 i := by
  have hpresent : ∀ w ∈ pairThenView, w.1.Present := by decide
  have h := registers_remember {} pairThenView hpresent
  refine ⟨hpresent, fun i hi => ⟨?_, ?_⟩⟩
  · have hview : Register.viewed? 0xFF14 = some (.d 5) := by decide
    exact h.last [(.e 4, 0x1111222233334444)] [] (.csfr 0xFF14) (.e 4) _ i (32 + i) rfl
      (by decide) hi (Nat.add_lt_add_left hi 32)
      (.trans _ _ _ (.rel _ _ (.view hview hi)) (.rel _ _ (.high rfl hi))) (by simp [Core.Spared])
  · have hlt : i < 64 := by omega
    refine h.last [] [(.csfr 0xFF14, 0xAAAABBBB)] (.e 4) (.e 4) _ i i rfl (by decide) hlt hlt
      (.refl _) fun w hw k hk hshares => ?_
    obtain rfl := List.mem_singleton.1 hw
    have hspot : Register.spot (.csfr 0xFF14) k = Register.spot (.e 4) i :=
      Register.spot_of_shares hshares
    have hcell : (Register.spot (.csfr 0xFF14) k).1 = .d 5 := rfl
    rw [hspot, Register.spot] at hcell
    simp [Register.canonical, hi] at hcell

end Tricore
