import Mathlib
import Tricore.Exec.Scramble

/-!
# Bit-reversed order

A bit-reversed index is stepped by adding its modifier with the carry running from the highest bit
down (`addDown`). Reversed, that is an ordinary sum, so after `i` steps the reversed index has grown
by `i` times the reversed modifier (`iterate_bitReverseStep`). A modifier of half the size of a
buffer of `2 ^ k` elements reverses to the unit of the upper `k` bits. So the index counts in the
reversed `k`-bit numbers, and visits the buffer once in every `2 ^ k` steps
(`reversed_steps_visit_all`).
-/

namespace Tricore

/-! ## Carries that run down -/

/-- Addition from the highest bit down: the carry out of a bit goes into the next lower one. -/
def addDown : {n : Nat} → (carry : Bool) → BitVec n → BitVec n → BitVec n
  | 0, _, x, _ => x
  | n + 1, carry, x, y =>
    .cons (x.msb ^^ (y.msb ^^ carry))
      (addDown (Bool.atLeastTwo x.msb y.msb carry) (x.setWidth n) (y.setWidth n))

variable {n k : Nat}

/-- A sum, its lowest bit apart. -/
theorem concat_add_concat (x y : BitVec n) (a b c : Bool) :
    x.concat a + y.concat b + (BitVec.ofBool c).setWidth (n + 1) =
      (x + y + (BitVec.ofBool (Bool.atLeastTwo a b c)).setWidth n).concat (a ^^ (b ^^ c)) := by
  have hbit (b : Bool) (k : Nat) : ((BitVec.ofBool b).setWidth k).toNat = b.toNat % 2 ^ k := by
    simp
  have hbits : a.toNat + b.toNat + c.toNat =
      2 * (Bool.atLeastTwo a b c).toNat + (a ^^ (b ^^ c)).toNat := by
    cases a <;> cases b <;> cases c <;> rfl
  have hsum : x.toNat * 2 + a.toNat + (y.toNat * 2 + b.toNat) + c.toNat =
      2 * (x.toNat + y.toNat + (Bool.atLeastTwo a b c).toNat) + (a ^^ (b ^^ c)).toNat := by
    omega
  have hlow : (a ^^ (b ^^ c)).toNat < 2 := Bool.toNat_lt _
  refine BitVec.eq_of_toNat_eq ?_
  simp only [BitVec.toNat_add, BitVec.toNat_concat, hbit, Nat.add_mod_mod, Nat.mod_add_mod]
  rw [hsum, Nat.pow_succ', Nat.mod_mul, Nat.mul_add_mod, Nat.mod_eq_of_lt hlow,
    Nat.mul_add_div (by decide), Nat.div_eq_of_lt hlow, Nat.add_zero]
  omega

theorem reverse_concat (x : BitVec n) (b : Bool) : (x.concat b).reverse = .cons b x.reverse := by
  refine BitVec.eq_of_getLsbD_eq fun i hi => ?_
  rw [BitVec.getLsbD_reverse, BitVec.getMsbD_concat, BitVec.getLsbD_cons, BitVec.getLsbD_reverse]
  by_cases h : i = n
  · simp [h]
  · simp [h, show i < n by omega]

/-- A carry that runs down is one that runs up between two reversals. -/
theorem reverse_add_reverse (x y : BitVec n) (c : Bool) :
    (x.reverse + y.reverse + (BitVec.ofBool c).setWidth n).reverse = addDown c x y := by
  induction n generalizing c with
  | zero => exact Subsingleton.elim _ _
  | succ n ih =>
    have hsplit (z : BitVec (n + 1)) : z.reverse = (z.setWidth n).reverse.concat z.msb :=
      BitVec.concat_reverse_setWidth_msb_eq_reverse.symm
    rw [hsplit x, hsplit y, concat_add_concat, reverse_concat, ih, addDown]

/-! ## Steps -/

theorem bitReverseStep_append (modifier index : BitVec 16) :
    bitReverseStep (modifier ++ index) =
      modifier ++ (index.reverse + modifier.reverse).reverse := by
  simp only [bitReverseStep, BitVec.extractLsb'_append_eq_right, BitVec.extractLsb'_append_eq_left]

theorem bitReverseStep_eq_addDown (modifier index : BitVec 16) :
    bitReverseStep (modifier ++ index) = modifier ++ addDown false index modifier := by
  have hnone : (BitVec.ofBool false).setWidth 16 = 0 := rfl
  rw [bitReverseStep_append, ← reverse_add_reverse, hnone, add_zero]

/-- Each step adds the reversed modifier to the reversed index. -/
theorem iterate_bitReverseStep (modifier index : BitVec 16) (i : Nat) :
    bitReverseStep^[i] (modifier ++ index) =
      modifier ++ (index.reverse + BitVec.ofNat 16 i * modifier.reverse).reverse := by
  induction i with
  | zero => simp [BitVec.reverse_reverse_eq]
  | succ i ih =>
    rw [Function.iterate_succ_apply', ih, bitReverseStep_append, BitVec.reverse_reverse_eq,
      BitVec.ofNat_add, BitVec.add_mul, BitVec.one_mul, BitVec.add_assoc]

/-! ## Buffers of a power of two -/

theorem reverse_twoPow (h : k < n) : (BitVec.twoPow n k).reverse = .twoPow n (n - 1 - k) := by
  refine BitVec.eq_of_getLsbD_eq fun i hi => ?_
  rw [BitVec.getLsbD_reverse, BitVec.getMsbD_eq_getLsbD, BitVec.getLsbD_twoPow,
    BitVec.getLsbD_twoPow]
  simp only [hi, h, decide_true, Bool.true_and, show n - 1 - k < n by omega]
  exact decide_eq_decide.2 (by omega)

/-- A number in the upper bits reverses to its own reversal in the lower ones. -/
theorem reverse_shiftLeft (hk : k ≤ n) (i : Nat) :
    (BitVec.ofNat n i <<< (n - k)).reverse = (BitVec.ofNat k i).reverse.setWidth n := by
  refine BitVec.eq_of_getLsbD_eq fun j hj => ?_
  simp only [BitVec.getLsbD_reverse, BitVec.getMsbD_eq_getLsbD, BitVec.getLsbD_setWidth,
    BitVec.getLsbD_shiftLeft, BitVec.getLsbD_ofNat]
  by_cases h : j < k
  · have hmirror : n - 1 - j - (n - k) = k - 1 - j := by omega
    simp [h, hj, hmirror, show ¬ n - 1 - j < n - k by omega, show n - 1 - j < n by omega,
      show k - 1 - j < k by omega, show k - 1 - j < n by omega]
  · simp [h, hj, show n - 1 - j < n - k by omega]

theorem iterate_bitReverseStep_zero (hk : 1 ≤ k) (hk16 : k ≤ 16) (i : Nat) :
    bitReverseStep^[i] (BitVec.twoPow 16 (k - 1) ++ (0 : BitVec 16)) =
      BitVec.twoPow 16 (k - 1) ++ (BitVec.ofNat k i).reverse.setWidth 16 := by
  have hzero : (0 : BitVec 16).reverse = 0 := by decide
  have hunit : 16 - 1 - (k - 1) = 16 - k := by omega
  rw [iterate_bitReverseStep, hzero, zero_add, reverse_twoPow (by omega), hunit,
    BitVec.mul_twoPow_eq_shiftLeft, reverse_shiftLeft hk16]

/-- Consecutive numbers take each value of `k` bits once in every `2 ^ k`. -/
theorem existsUnique_ofNat_eq (start : Nat) (y : BitVec k) :
    ∃! i, start ≤ i ∧ i < start + 2 ^ k ∧ BitVec.ofNat k i = y := by
  refine ⟨start + (y - BitVec.ofNat k start).toNat, ⟨by omega, ?_, ?_⟩, ?_⟩
  · have := (y - BitVec.ofNat k start).isLt
    omega
  · rw [BitVec.ofNat_add, BitVec.ofNat_toNat, BitVec.setWidth_eq, add_sub_cancel]
  · rintro i ⟨hle, hlt, rfl⟩
    obtain ⟨d, rfl⟩ := Nat.exists_eq_add_of_le hle
    have hd : d < 2 ^ k := by omega
    rw [BitVec.ofNat_add, BitVec.add_comm, BitVec.add_sub_cancel, BitVec.toNat_ofNat,
      Nat.mod_eq_of_lt hd]

/-- The index register of a buffer of `2 ^ k` elements, `i` steps after its index was 0. -/
def reversedWord (k i : Nat) : Word :=
  bitReverseStep^[i] (BitVec.ofNat 16 (2 ^ (k - 1)) ++ (0 : BitVec 16))

theorem reversedWord_eq (hk : 1 ≤ k) (hk16 : k ≤ 16) (i : Nat) :
    reversedWord k i =
      BitVec.ofNat 16 (2 ^ (k - 1)) ++ (BitVec.ofNat k i).reverse.setWidth 16 := by
  have hmodifier : BitVec.ofNat 16 (2 ^ (k - 1)) = .twoPow 16 (k - 1) :=
    BitVec.eq_of_toNat_eq (by simp [BitVec.toNat_twoPow])
  rw [reversedWord, hmodifier]
  exact iterate_bitReverseStep_zero hk hk16 i

theorem index_reversedWord (hk : 1 ≤ k) (hk16 : k ≤ 16) (i : Nat) :
    (reversedWord k i).setWidth 16 = (BitVec.ofNat k i).reverse.setWidth 16 := by
  rw [reversedWord_eq hk hk16]
  exact BitVec.setWidth_append_eq_right

/-- The index is the reversal of the number of steps, so that each index below the size of the
buffer comes once in as many steps. -/
theorem reversed_steps_visit_all (hk : 1 ≤ k) (hk16 : k ≤ 16) :
    (∀ i, reversedWord k i =
      BitVec.ofNat 16 (2 ^ (k - 1)) ++ (BitVec.ofNat k i).reverse.setWidth 16) ∧
    (∀ start, ∀ x : BitVec 16, x.toNat < 2 ^ k →
      ∃! i, start ≤ i ∧ i < start + 2 ^ k ∧ (reversedWord k i).setWidth 16 = x) ∧
    (reversedWord k (2 ^ k)).setWidth 16 = (0 : BitVec 16) ∧
    ∀ modifier index : BitVec 16,
      bitReverseStep (modifier ++ index) = modifier ++ addDown false index modifier := by
  refine ⟨reversedWord_eq hk hk16, fun start x hx => ?_, ?_, bitReverseStep_eq_addDown⟩
  · have hiff (i : Nat) :
        (reversedWord k i).setWidth 16 = x ↔ BitVec.ofNat k i = (x.setWidth k).reverse := by
      rw [index_reversedWord hk hk16]
      constructor
      · rintro rfl
        rw [BitVec.setWidth_setWidth_of_le _ hk16, BitVec.setWidth_eq, BitVec.reverse_reverse_eq]
      · intro h
        refine BitVec.eq_of_toNat_eq ?_
        rw [h, BitVec.reverse_reverse_eq, BitVec.toNat_setWidth_of_le hk16, BitVec.toNat_setWidth,
          Nat.mod_eq_of_lt hx]
    simp only [hiff]
    exact existsUnique_ofNat_eq start _
  · have hwrap : BitVec.ofNat k (2 ^ k) = 0#k :=
      BitVec.eq_of_toNat_eq (by rw [BitVec.toNat_ofNat, Nat.mod_self, BitVec.toNat_zero])
    rw [index_reversedWord hk hk16, hwrap, BitVec.reverse_eq_zero_iff.2 rfl]
    simp

/-- Sixteen elements: the index goes from 0 to 8 and to 4, and comes to 5 once. -/
theorem reversed_steps_visit_all_sixteen :
    reversedWord 4 1 = 0x00080008 ∧ reversedWord 4 2 = 0x00080004 ∧
      ∃! i, 0 ≤ i ∧ i < 16 ∧ (reversedWord 4 i).setWidth 16 = (5 : BitVec 16) := by
  obtain ⟨hword, hvisits, -⟩ := reversed_steps_visit_all (k := 4) (by decide) (by decide)
  exact ⟨hword 1, hword 2, hvisits 0 5 (by decide)⟩

end Tricore
