import Mathlib
import Tricore.Proofs.Bytes

/-!
# Wide accesses and single bytes

A wide access to a window is checked once and goes by its offset (`Window.ByOffset`), while accesses
to its bytes one after the other go around the end of the address space. Up to that end the two
agree: the wide access succeeds if each byte can be accessed, and then it is the access to each of
them (`Window.Bytewise`). Beyond it they part: offsets go on where addresses start again at zero, so
that a window may give bytes that have no address, and may refuse bytes that all have one
(`wide_accesses_bytewise`).
-/

namespace Tricore

namespace Window

/-- A wide access is made exactly if its offset leaves room for it, on the bytes from there on. -/
structure ByOffset (w : Window) (addr : Address) (n : Nat) (v : Value) : Prop where
  readable : (∃ x, Bus.read w addr n = .ok x) ↔
    w.base.toNat ≤ addr.toNat ∧ addr.toNat + n ≤ w.base.toNat + w.size
  value : ∀ x, Bus.read w addr n = .ok x → x = .ofNat 64 (w.number addr n)
  writable : (Bus.write w addr n v).2 = none ↔
    w.base.toNat ≤ addr.toNat ∧ addr.toNat + n ≤ w.base.toNat + w.size
  written : (Bus.write w addr n v).2 = none → w.Receives addr n v (Bus.write w addr n v).1

/-- A wide access is made exactly if each of its bytes can be accessed, and is then made byte by
byte. -/
structure Bytewise (w : Window) (addr : Address) (n : Nat) (v : Value) : Prop where
  readable : (∃ x, Bus.read w addr n = .ok x) ↔
    ∀ k < n, ∃ b, Bus.readByte w (addr + .ofNat 32 k) = .ok b
  value : ∀ x, Bus.read w addr n = .ok x → assemble <$> readEach (Bus.readByte w) addr n = .ok x
  writable : (Bus.write w addr n v).2 = none ↔
    ∀ k < n, ∃ w', Bus.writeByte w (addr + .ofNat 32 k) ((v >>> (8 * k)).setWidth 8) = .ok w'
  written : (Bus.write w addr n v).2 = none →
    Bus.write w addr n v = writeEach Bus.writeByte w addr (split n v)
  bytes : (Bus.write w addr n v).2 = none → ∀ k < n,
    Bus.readByte (Bus.write w addr n v).1 (addr + .ofNat 32 k) =
      .ok ((v >>> (8 * k)).setWidth 8)
  others : (Bus.write w addr n v).2 = none → ∀ a, (∀ k < n, a ≠ addr + .ofNat 32 k) →
    Bus.readByte (Bus.write w addr n v).1 a = Bus.readByte w a

variable {w : Window} {addr : Address} {i k n : Nat} {v : Value}

/-! ## Addresses -/

theorem toNat_advance (h : addr.toNat + k < 2 ^ 32) :
    (addr + .ofNat 32 k).toNat = addr.toNat + k := by
  rw [BitVec.toNat_add, BitVec.toNat_ofNat, Nat.add_mod_mod, Nat.mod_eq_of_lt h]

theorem advance_one (addr : Address) (k : Nat) :
    addr + 1 + .ofNat 32 k = addr + .ofNat 32 (k + 1) := by
  rw [BitVec.add_assoc, Nat.add_comm k 1, BitVec.ofNat_add]
  rfl

/-- The address is that of a byte of the window, and its index is `i`. -/
def Holds (w : Window) (addr : Address) (i : Nat) : Prop := w.Maps addr ∧ w.offset addr = i

theorem holds_of_covers (h : w.covers addr n = true) (htop : addr.toNat + n ≤ 2 ^ 32) (hk : k < n) :
    w.Holds (addr + .ofNat 32 k) (w.offset addr + k) := by
  obtain ⟨hbase, hsize⟩ := covers_iff.1 h
  have hsum : (addr + .ofNat 32 k).toNat = addr.toNat + k := toNat_advance (by omega)
  have hmaps : w.Maps (addr + .ofNat 32 k) := ⟨by omega, by omega⟩
  refine ⟨hmaps, ?_⟩
  unfold offset
  rw [BitVec.toNat_sub_of_le hmaps.1, BitVec.toNat_sub_of_le hbase]
  omega

/-- Up to the end of the address space, the first and the last byte decide. -/
theorem covers_iff_maps (hn : 1 ≤ n) (htop : addr.toNat + n ≤ 2 ^ 32) :
    w.covers addr n = true ↔ ∀ k < n, w.Maps (addr + .ofNat 32 k) := by
  constructor
  · intro h k hk
    exact (holds_of_covers h htop hk).1
  · intro h
    obtain ⟨hbase, -⟩ := h 0 (by omega)
    obtain ⟨-, hsize⟩ := h (n - 1) (by omega)
    rw [toNat_advance (by omega)] at hbase hsize
    exact covers_iff.2 ⟨by omega, by omega⟩

/-- Beyond it, only the whole address space has all bytes. -/
theorem maps_around_iff (htop : 2 ^ 32 < addr.toNat + n) :
    (∀ k < n, w.Maps (addr + .ofNat 32 k)) ↔ w.base = 0 ∧ 2 ^ 32 ≤ w.size := by
  constructor
  · intro h
    have hlt := addr.isLt
    obtain ⟨hfirst, -⟩ := h (2 ^ 32 - addr.toNat) (by omega)
    obtain ⟨-, hlast⟩ := h (2 ^ 32 - 1 - addr.toNat) (by omega)
    have hbase : w.base.toNat = 0 := by
      rw [BitVec.toNat_add, BitVec.toNat_ofNat, Nat.add_mod_mod, Nat.add_sub_of_le hlt.le,
        Nat.mod_self] at hfirst
      omega
    rw [toNat_advance (by omega)] at hlast
    exact ⟨BitVec.eq_of_toNat_eq hbase, by omega⟩
  · rintro ⟨hbase, hsize⟩ k -
    have hlt := (addr + .ofNat 32 k).isLt
    have hzero : w.base.toNat = 0 := by rw [hbase]; rfl
    exact ⟨by omega, by omega⟩

/-! ## Bytes -/

theorem readByte_of_holds (h : w.Holds addr i) : Bus.readByte w addr = .ok (w.bytes.get i) := by
  simp only [Bus.readByte, covers_one.2 h.1, if_true, h.2]

theorem writeByte_of_holds (h : w.Holds addr i) (b : Byte) :
    Bus.writeByte w addr b = .ok { w with bytes := w.bytes.put i b } := by
  have hcovers : w.covers addr [b].length = true := covers_one.2 h.1
  simp only [Bus.writeByte, load, if_pos hcovers, h.2]
  rfl

theorem exists_readByte_iff : (∃ b, Bus.readByte w addr = .ok b) ↔ w.Maps addr := by
  constructor
  · rintro ⟨b, hb⟩
    by_contra hmaps
    rw [readByte_of_not_maps hmaps] at hb
    cases hb
  · intro hmaps
    exact ⟨_, readByte_of_maps hmaps⟩

theorem exists_writeByte_iff (b : Byte) :
    (∃ w', Bus.writeByte w addr b = .ok w') ↔ w.Maps addr := by
  constructor
  · rintro ⟨w', hb⟩
    by_contra hmaps
    have hcovers : ¬ w.covers addr [b].length = true := mt covers_one.1 hmaps
    simp only [Bus.writeByte, load, if_neg hcovers] at hb
    cases hb
  · intro hmaps
    exact ⟨_, writeByte_of_holds ⟨hmaps, rfl⟩ b⟩

/-- Byte by byte, addresses that hold consecutive indices are read as a slice, -/
theorem readEach_of_holds (h : ∀ k < n, w.Holds (addr + .ofNat 32 k) (i + k)) :
    readEach (Bus.readByte w) addr n = .ok (w.bytes.slice i n) := by
  induction n generalizing addr i with
  | zero => rfl
  | succ n ih =>
    have hfirst : w.Holds addr i := by simpa using h 0 (Nat.succ_pos n)
    have hrest : ∀ k < n, w.Holds (addr + 1 + .ofNat 32 k) (i + 1 + k) := by
      intro k hk
      rw [advance_one, Nat.add_assoc, Nat.add_comm 1 k]
      exact h (k + 1) (by omega)
    rw [readEach, readByte_of_holds hfirst, ih hrest]
    rfl

/-- and written as one. -/
theorem writeEach_of_holds {bs : List Byte}
    (h : ∀ k < bs.length, w.Holds (addr + .ofNat 32 k) (i + k)) :
    writeEach Bus.writeByte w addr bs = ({ w with bytes := w.bytes.putAll i bs }, none) := by
  induction bs generalizing w addr i with
  | nil => rfl
  | cons b bs ih =>
    have hfirst : w.Holds addr i := by simpa using h 0 (by simp)
    -- What is written leaves base and size alone, and with them every address.
    have hrest : ∀ k < bs.length,
        Holds { w with bytes := w.bytes.put i b } (addr + 1 + .ofNat 32 k) (i + 1 + k) := by
      intro k hk
      rw [advance_one, Nat.add_assoc, Nat.add_comm 1 k]
      exact h (k + 1) (by simpa using hk)
    rw [writeEach, writeByte_of_holds hfirst]
    exact ih hrest

/-! ## Wide accesses -/

theorem exists_read_iff (hn : n ≤ 8) :
    (∃ x, Bus.read w addr n = .ok x) ↔ w.covers addr n = true := by
  constructor
  · rintro ⟨x, hx⟩
    by_contra hcovers
    rw [read_of_not_covers hcovers] at hx
    cases hx
  · intro hcovers
    exact ⟨_, read_of_covers hn hcovers⟩

theorem write_done_iff : (Bus.write w addr n v).2 = none ↔ w.covers addr n = true := by
  constructor
  · intro hdone
    by_contra hcovers
    rw [write_of_not_covers v hcovers] at hdone
    cases hdone
  · intro hcovers
    obtain ⟨w', hwrite, -⟩ := write_of_covers v hcovers
    rw [hwrite]

/-- An address that is none of those written holds another index. -/
theorem offset_of_ne {a : Address} (ha : w.Maps a) (hcovers : w.covers addr n = true)
    (hne : ∀ k < n, a ≠ addr + .ofNat 32 k) :
    w.offset a < w.offset addr ∨ w.offset addr + n ≤ w.offset a := by
  obtain ⟨hbase, -⟩ := covers_iff.1 hcovers
  unfold offset
  rw [BitVec.toNat_sub_of_le ha.1, BitVec.toNat_sub_of_le hbase]
  by_contra hinside
  have hlt := a.isLt
  refine hne (a.toNat - addr.toNat) (by omega) (BitVec.eq_of_toNat_eq ?_)
  rw [toNat_advance (by omega)]
  have hle := ha.1
  omega

theorem Receives.readByte_of_ne {w' : Window} (h : w.Receives addr n v w')
    (hcovers : w.covers addr n = true) {a : Address} (hne : ∀ k < n, a ≠ addr + .ofNat 32 k) :
    Bus.readByte w' a = Bus.readByte w a := by
  have hmaps : w'.Maps a ↔ w.Maps a := by
    unfold Maps
    rw [h.extent.1, h.extent.2]
  by_cases ha : w.Maps a
  · rw [readByte_of_holds ⟨hmaps.2 ha, h.offset a⟩, readByte_of_holds ⟨ha, rfl⟩,
      h.others _ (offset_of_ne ha hcovers hne)]
  · rw [readByte_of_not_maps ha, readByte_of_not_maps (mt hmaps.1 ha)]

theorem byOffset (w : Window) (addr : Address) (v : Value) (hn : n ≤ 8) :
    w.ByOffset addr n v where
  readable := by rw [exists_read_iff hn, covers_iff]
  value x hx := by
    have hcovers := (exists_read_iff hn).1 ⟨x, hx⟩
    rw [read_of_covers hn hcovers] at hx
    exact (Except.ok.inj hx).symm
  writable := by rw [write_done_iff, covers_iff]
  written hdone := by
    obtain ⟨w', hwrite, hreceives⟩ := write_of_covers v (write_done_iff.1 hdone)
    rwa [hwrite]

theorem bytewise_of_le (w : Window) (v : Value) (hpos : 1 ≤ n) (hn : n ≤ 8)
    (htop : addr.toNat + n ≤ 2 ^ 32) : w.Bytewise addr n v where
  readable := by
    simp only [exists_read_iff hn, covers_iff_maps hpos htop, exists_readByte_iff]
  value x hx := by
    have hcovers := (exists_read_iff hn).1 ⟨x, hx⟩
    rw [readEach_of_holds fun k hk => holds_of_covers hcovers htop hk, ← hx]
    simp only [Bus.read, readBytes, if_pos hcovers]
  writable := by
    simp only [write_done_iff, covers_iff_maps hpos htop, exists_writeByte_iff]
  written hdone := by
    have hcovers := write_done_iff.1 hdone
    have hholds : ∀ k < (split n v).length, w.Holds (addr + .ofNat 32 k) (w.offset addr + k) := by
      intro k hk
      rw [length_split] at hk
      exact holds_of_covers hcovers htop hk
    rw [writeEach_of_holds hholds]
    simp only [Bus.write, load, length_split, if_pos hcovers]
    rfl
  bytes hdone k hk := by
    have hcovers := write_done_iff.1 hdone
    obtain ⟨w', hwrite, hreceives⟩ := write_of_covers v hcovers
    rw [← hreceives.extent.covers] at hcovers
    have hafter := holds_of_covers hcovers htop hk
    rw [hwrite, readByte_of_holds hafter, hreceives.offset, hreceives.bytes k hk]
  others hdone a hne := by
    have hcovers := write_done_iff.1 hdone
    obtain ⟨w', hwrite, hreceives⟩ := write_of_covers v hcovers
    rw [hwrite]
    exact hreceives.readByte_of_ne hcovers hne

end Window

/-- Wide accesses go by their offset. Up to the end of the address space that makes them accesses to
each byte; beyond it, all bytes can be accessed only if the window is the whole address space. -/
theorem wide_accesses_bytewise (w : Window) (addr : Address) {n : Nat} (hpos : 1 ≤ n) (hn : n ≤ 8)
    (v : Value) :
    w.ByOffset addr n v ∧ (addr.toNat + n ≤ 2 ^ 32 → w.Bytewise addr n v) ∧
    (2 ^ 32 < addr.toNat + n →
      ((∀ k < n, ∃ b, Bus.readByte w (addr + .ofNat 32 k) = .ok b) ↔
        w.base = 0 ∧ 2 ^ 32 ≤ w.size)) := by
  refine ⟨w.byOffset addr v hn, w.bytewise_of_le v hpos hn, fun htop => ?_⟩
  simp only [Window.exists_readByte_iff]
  exact Window.maps_around_iff htop

/-- The last sixteen bytes of the address space, and sixteen more. -/
def beyondTop : Window := { base := 0xFFFFFFF0, size := 32 }

/-- The last word is accessed byte by byte; of the word two bytes later, not all bytes can be. -/
theorem wide_accesses_bytewise_last :
    beyondTop.Bytewise 0xFFFFFFFC 4 0x44332211 ∧
      ¬ ∀ k < 4, ∃ b, Bus.readByte beyondTop (0xFFFFFFFE + .ofNat 32 k) = .ok b := by
  obtain ⟨-, hlast, -⟩ :=
    wide_accesses_bytewise beyondTop 0xFFFFFFFC (n := 4) (by decide) (by decide) 0x44332211
  obtain ⟨-, -, hbeyond⟩ :=
    wide_accesses_bytewise beyondTop 0xFFFFFFFE (n := 4) (by decide) (by decide) 0
  refine ⟨hlast (by decide), ?_⟩
  rw [hbeyond (by decide)]
  decide

/-- That word is read all the same. -/
theorem wide_read_passes_top :
    Bus.read beyondTop 0xFFFFFFFE 4 = .ok 0 ∧
      Bus.readByte beyondTop (0xFFFFFFFE + .ofNat 32 2) = .error (.outside 0 1) :=
  ⟨rfl, rfl⟩

end Tricore
