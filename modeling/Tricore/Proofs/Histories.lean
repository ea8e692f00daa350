import Mathlib
import Tricore.Proofs.Windows

/-!
# Memory over time

A window is a store. Whatever is written to it and loaded into it, each of its bytes is the one that
the last successful update had for it, or the one that was there at first (`Window.latest`), and an
update that fails leaves everything as it is (`windows_remember`). A byte is named by its place, its
address without a bound, since a window may go on past the end of the address space.
-/

namespace Tricore

/-- What the last update that says something about a key says, or else what held at first. -/
def latest {α κ ν : Type} (value? : α → κ → Option ν) (first : κ → ν) (us : List α) (k : κ) : ν :=
  (us.reverse.findSome? (value? · k)).getD (first k)

theorem latest_cons {α κ ν : Type} (value? : α → κ → Option ν) (first : κ → ν) (u : α)
    (us : List α) (k : κ) :
    latest value? first (u :: us) k =
      latest value? (fun k => (value? u k).getD (first k)) us k := by
  unfold latest
  rw [List.reverse_cons, List.findSome?_append, List.findSome?_singleton, Option.getD_or]

namespace Window

/-- What is done to memory: the low `n` bytes of a value are written, or bytes are loaded. -/
inductive Update where
  | write (addr : Address) (n : Nat) (v : Value)
  | load (addr : Address) (bytes : List Byte)
  deriving DecidableEq, Repr

namespace Update

def addr : Update → Address
  | write addr _ _ | load addr _ => addr

def length : Update → Nat
  | write _ n _ => n
  | load _ bytes => bytes.length

/-- The byte that an update has for a place. -/
def byte? : Update → Nat → Option Byte
  | write addr n v, a =>
    if addr.toNat ≤ a ∧ a < addr.toNat + n then some ((v >>> (8 * (a - addr.toNat))).setWidth 8)
    else none
  | load addr bytes, a => if addr.toNat ≤ a then bytes[a - addr.toNat]? else none

def apply (w : Window) : Update → Window × Option Fault
  | write addr n v => Bus.write w addr n v
  | load addr bytes => Bus.load w addr bytes

/-- All places of the update are in the window. -/
def Inside (u : Update) (w : Window) : Prop :=
  w.base.toNat ≤ u.addr.toNat ∧ u.addr.toNat + u.length ≤ w.base.toNat + w.size

end Update

/-- The byte at a place. -/
def cell (w : Window) (a : Nat) : Byte := w.bytes.get (a - w.base.toNat)

/-- The window after some updates, whether they succeed or fail. -/
def after (w : Window) (us : List Update) : Window := us.foldl (fun w u => (u.apply w).1) w

/-- The updates that succeed. -/
def done (w : Window) : List Update → List Update
  | [] => []
  | u :: us =>
    match u.apply w with
    | (w', none) => u :: w'.done us
    | (w', some _) => w'.done us

/-- The byte that the last successful update had for a place, or the one that was there at first. -/
def latest (w : Window) (us : List Update) : Nat → Byte :=
  Tricore.latest Update.byte? w.cell (w.done us)

/-- After these updates, the window has kept what it was given. -/
structure Remembers (w : Window) (us : List Update) : Prop where
  extent : w.SameExtent (w.after us)
  succeeds : ∀ u : Update, (u.apply (w.after us)).2 = none ↔ u.Inside w
  fails : ∀ u : Update, (u.apply (w.after us)).2 ≠ none → (u.apply (w.after us)).1 = w.after us
  reads : ∀ (addr : Address) (n : Nat), n ≤ 8 → w.base.toNat ≤ addr.toNat →
    addr.toNat + n ≤ w.base.toNat + w.size →
    ∃ x, Bus.read (w.after us) addr n = .ok x ∧ x.toNat < 2 ^ (8 * n) ∧
      ∀ k < n, (x >>> (8 * k)).setWidth 8 = w.latest us (addr.toNat + k)
  readsBack : ∀ (addr : Address) (n : Nat) (v : Value), n ≤ 8 →
    (Bus.write (w.after us) addr n v).2 = none →
    Bus.read (Bus.write (w.after us) addr n v).1 addr n = .ok (.ofNat 64 (v.toNat % 2 ^ (8 * n)))

variable {w w' : Window} {u : Update} {us : List Update} {a : Nat}

/-! ## One update -/

namespace Update

/-- A write loads the bytes of its value. -/
def bytes : Update → List Byte
  | write _ n v => split n v
  | load _ bytes => bytes

theorem length_bytes (u : Update) : u.bytes.length = u.length := by
  cases u with
  | write addr n v => exact length_split n v
  | load addr bytes => rfl

theorem byte?_eq (u : Update) (a : Nat) :
    u.byte? a = if u.addr.toNat ≤ a then u.bytes[a - u.addr.toNat]? else none := by
  cases u with
  | load addr bytes => rfl
  | write addr n v =>
    simp only [byte?, bytes, Update.addr, split_eq]
    by_cases hle : addr.toNat ≤ a
    · by_cases hlt : a < addr.toNat + n
      · rw [if_pos ⟨hle, hlt⟩, if_pos hle]
        simp [show a - addr.toNat < n by omega]
      · rw [if_neg (fun h => hlt h.2), if_pos hle]
        simp [show n ≤ a - addr.toNat by omega]
    · rw [if_neg (fun h => hle h.1), if_neg hle]

theorem apply_eq (w : Window) (u : Update) : u.apply w = w.attempt (w.load u.addr u.bytes) := by
  cases u <;> rfl

theorem covers_iff_inside : w.covers u.addr u.bytes.length = true ↔ u.Inside w := by
  rw [length_bytes]
  exact covers_iff

theorem apply_of_not_inside (h : ¬ u.Inside w) :
    u.apply w = (w, some (.outside u.addr u.length)) := by
  rw [apply_eq, Window.load, if_neg (mt covers_iff_inside.1 h), length_bytes]
  rfl

theorem apply_of_inside (h : u.Inside w) :
    u.apply w = ({ w with bytes := w.bytes.putAll (w.offset u.addr) u.bytes }, none) := by
  rw [apply_eq, Window.load, if_pos (covers_iff_inside.2 h)]
  rfl

theorem apply_done_iff : (u.apply w).2 = none ↔ u.Inside w := by
  by_cases h : u.Inside w
  · simp [apply_of_inside h, h]
  · simp [apply_of_not_inside h, h]

theorem sameExtent_apply (w : Window) (u : Update) : w.SameExtent (u.apply w).1 := by
  by_cases h : u.Inside w
  · rw [apply_of_inside h]
    exact ⟨rfl, rfl⟩
  · rw [apply_of_not_inside h]
    exact ⟨rfl, rfl⟩

/-- An update inside the window puts the bytes it has and keeps the others. -/
theorem cell_apply (h : u.Inside w) (ha : w.base.toNat ≤ a) :
    (u.apply w).1.cell a = (u.byte? a).getD (w.cell a) := by
  have hoffset : w.offset u.addr = u.addr.toNat - w.base.toNat := BitVec.toNat_sub_of_le h.1
  have hbase := h.1
  rw [apply_of_inside h, byte?_eq, cell, cell]
  dsimp only
  rw [hoffset]
  by_cases hle : u.addr.toNat ≤ a
  · rw [if_pos hle]
    cases hbyte : u.bytes[a - u.addr.toNat]? with
    | some b =>
      rw [show a - w.base.toNat = u.addr.toNat - w.base.toNat + (a - u.addr.toNat) by omega]
      exact Store.get_putAll_inside hbyte
    | none =>
      have hpast := List.getElem?_eq_none_iff.1 hbyte
      exact Store.get_putAll_outside (by omega)
  · rw [if_neg hle]
    exact Store.get_putAll_outside (by omega)

end Update

/-! ## A run of updates -/

theorem sameExtent_after (w : Window) (us : List Update) : w.SameExtent (w.after us) := by
  induction us generalizing w with
  | nil => exact ⟨rfl, rfl⟩
  | cons u us ih => exact (u.sameExtent_apply w).trans (ih (u.apply w).1)

theorem inside_after_iff (us : List Update) : u.Inside (w.after us) ↔ u.Inside w := by
  obtain ⟨hbase, hsize⟩ := w.sameExtent_after us
  unfold Update.Inside
  rw [hbase, hsize]

theorem cell_after (ha : w.base.toNat ≤ a) : (w.after us).cell a = w.latest us a := by
  induction us generalizing w with
  | nil => rfl
  | cons u us ih =>
    have hbase : (u.apply w).1.base = w.base := (u.sameExtent_apply w).1
    refine (ih (w := (u.apply w).1) (hbase ▸ ha)).trans ?_
    by_cases h : u.Inside w
    · have hdone : w.done (u :: us) = u :: (u.apply w).1.done us := by
        rw [done, Update.apply_of_inside h]
      rw [latest, latest, hdone, latest_cons]
      -- Only the byte at this place counts, and that is the one `u` has for it.
      exact congrArg _ (Update.cell_apply h ha)
    · have hdone : w.done (u :: us) = w.done us := by
        rw [done, Update.apply_of_not_inside h]
      rw [Update.apply_of_not_inside h, latest, latest, hdone]

theorem bytes_get_offset {addr : Address} (h : w.base.toNat ≤ addr.toNat) (k : Nat) :
    w.bytes.get (w.offset addr + k) = w.cell (addr.toNat + k) := by
  rw [cell, offset, BitVec.toNat_sub_of_le h]
  congr 1
  omega

end Window

/-- After any updates a window reads, byte for byte, as what was last put there. -/
theorem windows_remember (w : Window) (us : List Window.Update) : w.Remembers us := by
  refine ⟨w.sameExtent_after us, fun u => ?_, fun u hu => ?_, fun addr n hn hlow hhigh => ?_,
    fun addr n v hn hdone => ?_⟩
  · rw [Window.Update.apply_done_iff, Window.inside_after_iff]
  · rw [Window.Update.apply_of_not_inside (mt Window.Update.apply_done_iff.2 hu)]
  · have hcovers : (w.after us).covers addr n = true := by
      rw [(w.sameExtent_after us).covers]
      exact Window.covers_iff.2 ⟨hlow, hhigh⟩
    refine ⟨_, Window.read_of_covers hn hcovers, ?_, fun k hk => ?_⟩
    · rw [BitVec.toNat_ofNat]
      exact (Nat.mod_le _ _).trans_lt (Window.number_lt _ addr n)
    · rw [← ((w.after us).receives_self addr hn).bytes k hk,
        Window.bytes_get_offset (Window.covers_iff.1 hcovers).1]
      exact Window.cell_after (by omega)
  · have hcovers := Window.write_done_iff.1 hdone
    obtain ⟨w', hwrite, hreceives⟩ := Window.write_of_covers v hcovers
    rw [hwrite, Window.read_of_covers hn ((hreceives.extent.covers addr n).trans hcovers),
      hreceives.number]

/-- Two writes and a load that overlap, and a write that passes the end of its window. -/
def overlapping : List Window.Update :=
  [.write 0x1004 4 0x11223344, .load 0x1006 [0xAA], .write 0x100E 4 1, .write 0x1004 1 0xFF55]

/-- Each byte is from the last of them that has one for it. -/
theorem windows_remember_overlapping :
    ∃ x, Bus.read (Window.after { base := 0x1000, size := 16 } overlapping) 0x1004 4 = .ok x ∧
      (x >>> 0).setWidth 8 = (0x55 : Byte) ∧ (x >>> 8).setWidth 8 = (0x33 : Byte) ∧
      (x >>> 16).setWidth 8 = (0xAA : Byte) ∧ (x >>> 24).setWidth 8 = (0x11 : Byte) := by
  obtain ⟨x, hread, -, hbytes⟩ :=
    (windows_remember { base := 0x1000, size := 16 } overlapping).reads 0x1004 4 (by decide)
      (by decide) (by decide)
  exact ⟨x, hread, hbytes 0 (by decide), hbytes 1 (by decide), hbytes 2 (by decide),
    hbytes 3 (by decide)⟩

end Tricore
