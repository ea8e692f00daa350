import Mathlib
import Tricore.Proofs.FailedSteps
import Tricore.Proofs.Values

/-!
# Bytes of a window

What is read from a window is the number that its bytes stand for, the lowest byte first
(`Window.number`), and what is written is found again byte by byte (`Window.Receives`). Accesses are
possible exactly where the window admits them (`Window.Admits`).
-/

namespace Tricore

/-! ## Stores -/

namespace Store

variable {s : Store} {i j k n : Nat} {b : Byte} {bs : List Byte}

theorem slice_eq (s : Store) (i n : Nat) :
    s.slice i n = (List.range n).map fun k => s.get (i + k) := by
  induction n generalizing i with
  | zero => rfl
  | succ n ih =>
    rw [slice, ih, List.range_succ_eq_map, List.map_cons, List.map_map, Nat.add_zero]
    congr 2
    funext k
    simp only [Function.comp, Nat.succ_eq_add_one]
    congr 1
    omega

theorem get_put : (s.put i b).get j = if i = j then b else s.get j := by
  rw [get, put, Std.TreeMap.getD_insert]
  simp only [Nat.compare_eq_eq]
  rfl

theorem get_putAll_outside (h : j < i ∨ i + bs.length ≤ j) : (s.putAll i bs).get j = s.get j := by
  induction bs generalizing s i with
  | nil => rfl
  | cons b bs ih =>
    rw [List.length_cons] at h
    rw [putAll, ih (by omega), get_put, if_neg (by omega)]

theorem get_putAll_inside (h : bs[k]? = some b) : (s.putAll i bs).get (i + k) = b := by
  induction bs generalizing s i k with
  | nil => cases h
  | cons first bs ih =>
    rw [putAll]
    cases k with
    | zero =>
      rw [get_putAll_outside (by omega), get_put, if_pos (by omega)]
      simpa using h
    | succ k =>
      rw [← Nat.add_assoc, Nat.add_right_comm]
      exact ih (by simpa using h)

end Store

/-! ## Little-endian values -/

theorem split_eq (n : Nat) (v : Value) :
    split n v = (List.range n).map fun k => (v >>> (8 * k)).setWidth 8 := by
  induction n generalizing v with
  | zero => rfl
  | succ n ih =>
    rw [split, ih, List.range_succ_eq_map, List.map_cons, List.map_map, Nat.mul_zero,
      BitVec.ushiftRight_zero]
    congr 2
    funext k
    rw [Function.comp, ← BitVec.shiftRight_add, Nat.succ_eq_add_one, Nat.mul_succ, Nat.add_comm]

/-- The number that bytes stand for, the lowest first. -/
def Bytes.toNat (bs : List Byte) : Nat := Nat.ofDigits 256 (bs.map BitVec.toNat)

theorem Bytes.toNat_cons (b : Byte) (bs : List Byte) :
    toNat (b :: bs) = b.toNat + 2 ^ 8 * toNat bs := by
  rw [toNat, List.map_cons, Nat.ofDigits_cons]
  rfl

theorem Bytes.toNat_lt (bs : List Byte) : toNat bs < 2 ^ (8 * bs.length) := by
  have hlt : ∀ d ∈ bs.map BitVec.toNat, d < 256 := by
    intro d hd
    obtain ⟨b, -, rfl⟩ := List.mem_map.1 hd
    exact b.isLt
  have h := Nat.ofDigits_lt_base_pow_length (by decide) hlt
  rwa [List.length_map, show (256 : Nat) = 2 ^ 8 by decide, ← Nat.pow_mul] at h

theorem Bytes.toNat_byte {bs : List Byte} {k : Nat} {b : Byte} (h : bs[k]? = some b) :
    toNat bs / 2 ^ (8 * k) % 2 ^ 8 = b.toNat := by
  induction bs generalizing k with
  | nil => cases h
  | cons first bs ih =>
    have hfirst : first.toNat < 2 ^ 8 := first.isLt
    rw [toNat_cons]
    cases k with
    | zero =>
      obtain rfl : first = b := by simpa using h
      omega
    | succ k =>
      have hdrop : (first.toNat + 2 ^ 8 * toNat bs) / 2 ^ 8 = toNat bs := by omega
      have hpow : 2 ^ (8 * (k + 1)) = 2 ^ 8 * 2 ^ (8 * k) := by rw [← Nat.pow_add]; congr 1; omega
      rw [hpow, ← Nat.div_div_eq_div_mul, hdrop]
      exact ih (by simpa using h)

theorem toNat_assemble {bs : List Byte} (h : bs.length ≤ 8) :
    (assemble bs).toNat = Bytes.toNat bs := by
  induction bs with
  | nil => rfl
  | cons b bs ih =>
    rw [List.length_cons] at h
    have hb : b.toNat < 2 ^ 8 := b.isLt
    -- Seven bytes leave room for one more.
    have hrest : Bytes.toNat bs < 2 ^ 56 :=
      (Bytes.toNat_lt bs).trans_le (Nat.pow_le_pow_right (by decide) (by omega))
    have hshift : (assemble bs <<< 8).toNat = 2 ^ 8 * Bytes.toNat bs := by
      rw [BitVec.toNat_shiftLeft, ih (by omega), Nat.shiftLeft_eq, Nat.mul_comm,
        Nat.mod_eq_of_lt (by omega)]
    rw [assemble, BitVec.toNat_or, BitVec.toNat_setWidth_of_le (by decide), hshift, Nat.or_comm,
      ← Nat.two_pow_add_eq_or_of_lt hb, Bytes.toNat_cons, Nat.add_comm]

theorem Bytes.toNat_split (n : Nat) (v : Value) : toNat (split n v) = v.toNat % 2 ^ (8 * n) := by
  induction n generalizing v with
  | zero => simp [split, toNat, Nat.mod_one]
  | succ n ih =>
    have hpow : 2 ^ (8 * (n + 1)) = 2 ^ 8 * 2 ^ (8 * n) := by rw [← Nat.pow_add]; congr 1; omega
    rw [split, toNat_cons, ih, BitVec.toNat_setWidth, BitVec.toNat_ushiftRight,
      Nat.shiftRight_eq_div_pow, hpow, Nat.mod_mul]

/-- The bytes of a value are still there when it is cut to its width. -/
theorem Width.byte_cut (w : Width) (v : Value) {k : Nat} (hk : k < w.bytes) :
    (w.cut v >>> (8 * k)).setWidth 8 = (v >>> (8 * k)).setWidth 8 := by
  refine BitVec.eq_of_getLsbD_eq fun i hi => ?_
  have hlt : 8 * k + i < w.bits := by
    unfold bits
    omega
  have hle := Width.bits_le w
  simp only [Width.cut, BitVec.getLsbD_setWidth, BitVec.getLsbD_ushiftRight, hlt,
    show 8 * k + i < 64 by omega, decide_true, Bool.true_and]

/-! ## Accesses -/

namespace Window

/-- The number that `n` bytes from an address on stand for. -/
def number (w : Window) (addr : Address) (n : Nat) : Nat :=
  Bytes.toNat ((List.range n).map fun k => w.bytes.get (w.offset addr + k))

/-- What a window becomes when the low `n` bytes of a value are written from an address on. -/
structure Receives (w : Window) (addr : Address) (n : Nat) (v : Value) (w' : Window) : Prop where
  extent : w.SameExtent w'
  bytes : ∀ k < n, w'.bytes.get (w.offset addr + k) = (v >>> (8 * k)).setWidth 8
  others : ∀ j, j < w.offset addr ∨ w.offset addr + n ≤ j → w'.bytes.get j = w.bytes.get j

variable {w w' : Window} {addr : Address} {n : Nat} {v : Value}

theorem number_lt (w : Window) (addr : Address) (n : Nat) : w.number addr n < 2 ^ (8 * n) := by
  have h := Bytes.toNat_lt ((List.range n).map fun k => w.bytes.get (w.offset addr + k))
  rwa [List.length_map, List.length_range] at h

/-- To write the number that is there changes nothing. -/
theorem receives_self (w : Window) (addr : Address) (hn : n ≤ 8) :
    w.Receives addr n (.ofNat 64 (w.number addr n)) w := by
  refine ⟨⟨rfl, rfl⟩, fun k hk => BitVec.eq_of_toNat_eq ?_, fun _ _ => rfl⟩
  have hlt : w.number addr n < 2 ^ 64 :=
    (w.number_lt addr n).trans_le (Nat.pow_le_pow_right (by decide) (by omega))
  have hbyte : w.number addr n / 2 ^ (8 * k) % 2 ^ 8 = (w.bytes.get (w.offset addr + k)).toNat :=
    Bytes.toNat_byte (by simp [hk])
  rw [BitVec.toNat_setWidth, BitVec.toNat_ushiftRight, BitVec.toNat_ofNat, Nat.mod_eq_of_lt hlt,
    Nat.shiftRight_eq_div_pow, hbyte]

/-- Offsets are as far from each other as their addresses, around the end of the address space. -/
theorem offset_apart (w : Window) {other : Address} {k : Nat} (hbelow : k ≤ (addr - other).toNat)
    (habove : n ≤ (other - addr).toNat) :
    w.offset other + k ≤ w.offset addr ∨ w.offset addr + n ≤ w.offset other := by
  unfold offset
  bv_omega

namespace Receives

theorem offset (h : w.Receives addr n v w') (other : Address) :
    w'.offset other = w.offset other := by
  rw [Window.offset, Window.offset, h.extent.1]

theorem number (h : w.Receives addr n v w') : w'.number addr n = v.toNat % 2 ^ (8 * n) := by
  rw [← Bytes.toNat_split, split_eq, Window.number, h.offset]
  refine congrArg Bytes.toNat (List.map_congr_left fun k hk => ?_)
  exact h.bytes k (List.mem_range.1 hk)

theorem number_apart {other : Address} {k : Nat} (h : w.Receives addr n v w')
    (hbelow : k ≤ (addr - other).toNat) (habove : n ≤ (other - addr).toNat) :
    w'.number other k = w.number other k := by
  rw [Window.number, Window.number, h.offset]
  refine congrArg Bytes.toNat (List.map_congr_left fun j hj => h.others _ ?_)
  have hj := List.mem_range.1 hj
  rcases w.offset_apart hbelow habove with hlow | hhigh <;> omega

end Receives

theorem read_of_covers (hn : n ≤ 8) (h : w.covers addr n = true) :
    Bus.read w addr n = .ok (.ofNat 64 (w.number addr n)) := by
  have hlt : w.number addr n < 2 ^ 64 :=
    (w.number_lt addr n).trans_le (Nat.pow_le_pow_right (by decide) (by omega))
  simp only [Bus.read, readBytes, if_pos h]
  refine congrArg Except.ok (BitVec.eq_of_toNat_eq ?_)
  rw [Store.slice_eq, toNat_assemble (by simpa using hn), BitVec.toNat_ofNat, Nat.mod_eq_of_lt hlt]
  rfl

theorem read_of_not_covers (h : ¬ w.covers addr n = true) :
    Bus.read w addr n = .error (.outside addr n) := by
  simp only [Bus.read, readBytes, if_neg h]
  rfl

theorem length_split (n : Nat) (v : Value) : (split n v).length = n := by simp [split_eq]

theorem write_of_covers (v : Value) (h : w.covers addr n = true) :
    ∃ w', Bus.write w addr n v = (w', none) ∧ w.Receives addr n v w' := by
  refine ⟨{ w with bytes := w.bytes.putAll (w.offset addr) (split n v) }, ?_, ⟨rfl, rfl⟩, ?_, ?_⟩
  · simp only [Bus.write, load, length_split, if_pos h]
    rfl
  · intro k hk
    refine Store.get_putAll_inside ?_
    simp [split_eq, hk]
  · intro j hj
    exact Store.get_putAll_outside (by rwa [length_split])

theorem write_of_not_covers (v : Value) (h : ¬ w.covers addr n = true) :
    Bus.write w addr n v = (w, some (.outside addr n)) := by
  simp only [Bus.write, load, length_split, if_neg h]
  rfl

/-- An access of this width is aligned and inside the window. -/
structure Admits (w : Window) (addr : Address) (width : Width) : Prop where
  aligned : Machine.misaligned addr width = false
  inside : w.covers addr width.bytes = true

theorem SameExtent.trans {w₁ : Window} (h : w.SameExtent w₁) (h' : w₁.SameExtent w') :
    w.SameExtent w' := ⟨h'.1.trans h.1, h'.2.trans h.2⟩

theorem SameExtent.admits {width : Width} (h : w.SameExtent w') (hw : w.Admits addr width) :
    w'.Admits addr width := ⟨hw.aligned, (h.covers _ _).trans hw.inside⟩

end Window

namespace Machine

/-- How an access fails that a window does not admit. -/
def refusal (addr : Address) (w : Width) : Trap :=
  if misaligned addr w then .unaligned addr else .bus addr (.outside addr w.bytes)

variable {m : Machine Window} {addr : Address} {w : Width}

theorem load_of_admits (h : m.bus.Admits addr w) :
    m.load addr w = .ok (.ofNat 64 (m.bus.number addr w.bytes)) := by
  rw [load, h.aligned, Window.read_of_covers (by cases w <;> decide) h.inside]
  rfl

theorem load_of_not_admits (h : ¬ m.bus.Admits addr w) :
    m.load addr w = .error (refusal addr w) := by
  unfold load refusal
  cases haligned : misaligned addr w with
  | true => rfl
  | false =>
    have hinside : ¬ m.bus.covers addr w.bytes = true := fun hinside => h ⟨haligned, hinside⟩
    rw [Window.read_of_not_covers hinside]
    rfl

/-- The bytes are those of the value, of which only as many count. -/
theorem store_of_admits (v : Value) (h : m.bus.Admits addr w) :
    ∃ bus, m.store addr w v = ({ m with bus }, none) ∧ m.bus.Receives addr w.bytes v bus := by
  obtain ⟨bus, hwrite, hreceives⟩ := Window.write_of_covers (w.cut v) h.inside
  refine ⟨bus, ?_, hreceives.extent, fun k hk => ?_, hreceives.others⟩
  · rw [store, h.aligned, hwrite]
    rfl
  · rw [hreceives.bytes k hk, w.byte_cut v hk]

theorem store_of_not_admits (v : Value) (h : ¬ m.bus.Admits addr w) :
    m.store addr w v = (m, some (refusal addr w)) := by
  unfold store refusal
  cases haligned : misaligned addr w with
  | true => rfl
  | false =>
    have hinside : ¬ m.bus.covers addr w.bytes = true := fun hinside => h ⟨haligned, hinside⟩
    rw [Window.write_of_not_covers _ hinside]
    rfl

end Machine

end Tricore
