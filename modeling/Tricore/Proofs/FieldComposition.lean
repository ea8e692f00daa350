import Mathlib
import Tricore.Proofs.BitFields
import Tricore.Proofs.MemoryUpdates

/-!
# Composition of bit-field instructions

What an insertion leaves agrees with the old word outside the field, and an extraction of the same
field gives back what was inserted; a mask that is applied in memory is an insertion there
(`fields_compose`). Each instruction may name the field in its own form. A field that fits is a
`BitField.slice` of the word, and extractions extend it.
-/

namespace Tricore

/-! ## Slices -/

namespace BitField

variable (f : BitField)

/-- The bit is in the field. -/
def Holds (j : Nat) : Prop := f.pos.toNat ≤ j ∧ j < f.pos.toNat + f.width.toNat

instance (j : Nat) : Decidable (f.Holds j) := inferInstanceAs (Decidable (_ ∧ _))

def slice (x : Word) : BitVec f.width.toNat := x.extractLsb' f.pos.toNat f.width.toNat

theorem getLsbD_mask {j : Nat} (hj : j < 32) : f.mask.getLsbD j = decide (f.Holds j) := by
  have hwidth : f.width.toNat ≤ 32 := by omega
  rw [mask, BitVec.getLsbD_shiftLeft, Tricore.getLsbD_mask hwidth, Bool.eq_iff_iff]
  simp only [hj, decide_true, Bool.true_and, Bool.and_eq_true, Bool.not_eq_true',
    decide_eq_true_eq, decide_eq_false_iff_not]
  unfold Holds
  omega

theorem getLsbD_inserted (x s : Word) {j : Nat} (hj : j < 32) :
    (f.inserted x s).getLsbD j =
      if f.Holds j then s.getLsbD (j - f.pos.toNat) else x.getLsbD j := by
  rw [inserted, merged, BitVec.getLsbD_or, BitVec.getLsbD_and, BitVec.getLsbD_and,
    BitVec.getLsbD_not, f.getLsbD_mask hj, BitVec.getLsbD_shiftLeft]
  by_cases hin : f.Holds j
  · have hpos : ¬ j < f.pos.toNat := Nat.not_lt.2 hin.1
    simp [hin, hj, hpos]
  · simp [hin, hj]

variable {f}

theorem slice_inserted (hfits : f.Fits) (x s : Word) :
    f.slice (f.inserted x s) = s.setWidth f.width.toNat := by
  refine BitVec.eq_of_getLsbD_eq fun j hj => ?_
  unfold Fits at hfits
  have hin : f.Holds (f.pos.toNat + j) := ⟨Nat.le_add_right _ _, Nat.add_lt_add_left hj _⟩
  rw [slice, BitVec.getLsbD_extractLsb', f.getLsbD_inserted x s (by omega), if_pos hin,
    Nat.add_sub_cancel_left, BitVec.getLsbD_setWidth]

/-- The top bits of the word are those of the field. -/
theorem getLsbD_raised (hfits : f.Fits) (form : FieldForm) (x : Word) {j : Nat}
    (hj : j < f.width.toNat) :
    (f.raised form x).getLsbD (32 - f.width.toNat + j) = (f.slice x).getLsbD j := by
  rw [raised, if_pos hfits, BitVec.getLsbD_shiftLeft, slice, BitVec.getLsbD_extractLsb']
  unfold Fits at hfits
  have hindex : 32 - f.width.toNat + j - (32 - (f.pos.toNat + f.width.toNat)) =
      f.pos.toNat + j := by omega
  have hlow : ¬ 32 - f.width.toNat + j < 32 - (f.pos.toNat + f.width.toNat) := by omega
  have hhigh : 32 - f.width.toNat + j < 32 := by omega
  simp [hindex, hlow, hhigh, hj]

theorem extracted_unsigned (hfits : f.Fits) (form : FieldForm) (x : Word) :
    f.extracted form .unsigned x = (f.slice x).setWidth 32 := by
  refine BitVec.eq_of_getLsbD_eq fun j hj => ?_
  rw [extracted, Sign.shiftRight, BitVec.getLsbD_ushiftRight, BitVec.getLsbD_setWidth]
  by_cases hin : j < f.width.toNat
  · rw [getLsbD_raised hfits form x hin]
    simp [hj]
  · rw [BitVec.getLsbD_of_ge _ _ (by omega), BitVec.getLsbD_of_ge (f.slice x) j (by omega),
      Bool.and_false]

theorem extracted_signed (hfits : f.Fits) (hwidth : 1 ≤ f.width.toNat) (form : FieldForm)
    (x : Word) : f.extracted form .signed x = (f.slice x).signExtend 32 := by
  have hmsb : (f.raised form x).msb = (f.slice x).msb := by
    have htop := getLsbD_raised hfits form x (j := f.width.toNat - 1) (by omega)
    unfold Fits at hfits
    have hindex : 32 - f.width.toNat + (f.width.toNat - 1) = 31 := by omega
    rw [hindex] at htop
    rw [BitVec.msb_eq_getLsbD_last, BitVec.msb_eq_getLsbD_last]
    exact htop
  refine BitVec.eq_of_getLsbD_eq fun j hj => ?_
  rw [extracted, Sign.shiftRight, BitVec.getLsbD_sshiftRight, BitVec.getLsbD_signExtend, hmsb]
  by_cases hin : j < f.width.toNat
  · rw [getLsbD_raised hfits form x hin]
    have hlow : 32 - f.width.toNat + j < 32 := by omega
    simp [hj, hin, hlow]
  · have hhigh : ¬ 32 - f.width.toNat + j < 32 := by omega
    simp [hj, hin, hhigh]

end BitField

/-! ## Instructions -/

/-- The instruction at hand is a bit-field instruction and works on this. -/
def Machine.Applies {β : Type} [Bus β] (isa : Isa) (m : Machine β) (op : FieldOp) (u : FieldUse) :
    Prop :=
  ∃ i, m.instruction? isa = some i ∧ (i.mnemonic, op) ∈ FieldOp.named ∧
    op.Reads m.core i.operands u

namespace Machine

variable {β : Type} [Bus β] {isa : Isa} {m : Machine β} {u : FieldUse}

theorem Applies.performs {op : FieldOp} (h : m.Applies isa op u) : m.Performs isa op u := by
  obtain ⟨i, hi, hname, hreads⟩ := h
  obtain ⟨u', hreads', hperforms⟩ := Instruction.performs_field hi hname
  rwa [hreads.unique hreads']

theorem Applies.of_decoded {op : FieldOp} (os : List Operand)
    (h : (m.instruction? isa).any (fun i => (i.mnemonic, op) ∈ FieldOp.named ∧ i.operands = os) =
      true)
    (hreads : op.Reads m.core os u) : m.Applies isa op u := by
  obtain ⟨i, hi, hdecoded⟩ := (Option.any_eq_true _ _).1 h
  obtain ⟨hname, rfl⟩ := of_decide_eq_true hdecoded
  exact ⟨i, hi, hname, hreads⟩

theorem Applies.leaves {op : FieldOp} {v : Value} (h : m.Applies isa op u)
    (hv : op.result? u = some v) : (m.step isa).2 = .done ∧ (m.step isa).1.core.read u.dst = v := by
  obtain ⟨hdone, hresult⟩ := h.performs
  exact ⟨hdone, Option.some.inj (hresult.symm.trans hv)⟩

end Machine

theorem Core.words_of_e {c : Core} {k : Nat} {high low : Word} (h : c.read (.e k) = high ++ low) :
    Operand.word c (.reg (.d k)) = low ∧ Operand.word c (.reg (.d (k + 1))) = high := by
  obtain ⟨hlow, hhigh⟩ := Core.read_halves_of_e h
  simp only [Operand.word, Operand.value, hlow, hhigh]
  exact ⟨BitVec.setWidth_setWidth_of_le _ (by decide), BitVec.setWidth_setWidth_of_le _ (by decide)⟩

/-- A modification with the mask of a field and a word moved to it is an insertion. -/
theorem Instruction.inserts_in_memory {isa : Isa} {m : Machine Window} {i : Instruction} {p : Place}
    {k : Nat} {f : BitField} {s : Word} (hi : m.instruction? isa = some i)
    (hname : i.mnemonic = "ldmst") (hops : i.operands = [.place p, .reg (.e k)])
    (hpair : m.core.read (.e k) = f.mask ++ s <<< f.pos.toNat) :
    m.CompletesAt isa (p.address m.core) .word
      (m.Exchanges p (fun old => f.inserted old s) []) := by
  obtain ⟨g, hg, hr, -⟩ := Instruction.resolved hi
  have ha := (Opcode.update_rows g hg _ hr).2.1 hname
  obtain ⟨p', k', hops', hp⟩ := Instruction.operands_of_pair hi (by rw [ha]; rfl)
  obtain ⟨rfl, rfl⟩ : p = p' ∧ k = k' := by simpa [hops] using hops'
  have hstep := Instruction.step_loadModifyStore hi hp hops ha
  obtain ⟨hvalue, hmask⟩ := Core.words_of_e hpair
  rwa [hvalue, hmask] at hstep

/-! ## Composition -/

/-- After an insertion, bits outside the field are the old ones and an extraction gives the low bits
of what was inserted. A mask and a modification in memory with the pair that it left write what the
insertion gives. -/
theorem fields_compose {β : Type} [Bus β] (isa : Isa) (m : Machine β) (u : FieldUse) (s : Word) :
    (∀ x, m.Applies isa .insert u → u.sources = [x, s] →
      (m.step isa).2 = .done ∧ ∃ y : Word, (m.step isa).1.core.read u.dst = y.setWidth 64 ∧
        y = u.field.inserted x s ∧
        (u.field.Fits →
          (∀ j < 32, ¬ u.field.Holds j → y.getLsbD j = x.getLsbD j) ∧
          ∀ {γ : Type} [Bus γ] (isa' : Isa) (m' : Machine γ) (u' : FieldUse),
            u'.sources = [y] → u'.field = u.field →
            (m'.Applies isa' (.extract .unsigned) u' → (m'.step isa').2 = .done ∧
              ((m'.step isa').1.core.read u'.dst).toNat = s.toNat % 2 ^ u.field.width.toNat) ∧
            (1 ≤ u.field.width.toNat → m'.Applies isa' (.extract .signed) u' →
              (m'.step isa').2 = .done ∧ (m'.step isa').1.core.read u'.dst =
                ((s.setWidth u.field.width.toNat).signExtend 32).setWidth 64))) ∧
    (m.Applies isa .mask u → u.sources = [s] →
      (m.step isa).2 = .done ∧
      ∀ (isa' : Isa) (m' : Machine Window) (i : Instruction) (p : Place) (k : Nat),
        m'.instruction? isa' = some i → i.mnemonic = "ldmst" →
        i.operands = [.place p, .reg (.e k)] →
        m'.core.read (.e k) = (m.step isa).1.core.read u.dst →
        m'.CompletesAt isa' (p.address m'.core) .word
          (m'.Exchanges p (fun old => u.field.inserted old s) [])) := by
  refine ⟨fun x happlies hsources => ?_, fun happlies hsources => ?_⟩
  · obtain ⟨hdone, hresult⟩ := happlies.leaves (by simp only [FieldOp.result?, hsources]; rfl)
    refine ⟨hdone, _, hresult, rfl, fun hfits => ⟨fun j hj hout => ?_, ?_⟩⟩
    · rw [u.field.getLsbD_inserted x s hj, if_neg hout]
    · intro γ _ isa' m' u' hsources' hfield
      refine ⟨fun hextract => ?_, fun hwidth hextract => ?_⟩
      · obtain ⟨hdone', hvalue⟩ := hextract.leaves
          (by simp only [FieldOp.result?, hsources']; rfl)
        rw [hfield, BitField.extracted_unsigned hfits, BitField.slice_inserted hfits] at hvalue
        refine ⟨hdone', ?_⟩
        rw [hvalue, BitVec.toNat_setWidth_of_le (by decide), BitVec.toNat_setWidth_of_le (by omega),
          BitVec.toNat_setWidth]
      · obtain ⟨hdone', hvalue⟩ := hextract.leaves
          (by simp only [FieldOp.result?, hsources']; rfl)
        rw [hfield, BitField.extracted_signed hfits hwidth, BitField.slice_inserted hfits] at hvalue
        exact ⟨hdone', hvalue⟩
  · obtain ⟨hdone, hresult⟩ := happlies.leaves (by simp only [FieldOp.result?, hsources]; rfl)
    refine ⟨hdone, fun isa' m' i p k hi hname hops hpair => ?_⟩
    exact Instruction.inserts_in_memory hi hname hops (hpair.trans hresult)

/-- `imask e4, d1, 28, 4` and then `ldmst [a2], e4`. -/
def maskAndModify : Machine Window where
  core := (({} : Core).setA 2 16).setD 1 0xA5
  bus :=
    let code : Store := .putAll .empty 0 [0x37, 0x10, 0x24, 0x4E, 0x49, 0x24, 0x40, 0x08]
    { base := 0, size := 32, bytes := code.putAll 16 [0x78, 0x56, 0x34, 0x12] }

/-- `insert d3, d1, d2, e4` and `extr d3, d1, 16, 16` on what it leaves, and a mask of the four top
bits with the modification that follows it. -/
theorem fields_compose_top :
    ((sameWords 0xBEEF9210 [0x17, 0x21, 0x00, 0x34]).step .v16).1.core.read (.d 3) = 0x92109210 ∧
      ((sameWords 0x92109210 [0x37, 0x01, 0x50, 0x38]).step .v16).1.core.read (.d 3) =
        0xFFFF9210 ∧
      ((maskAndModify.step .v16).1.step .v16).1.wordAt 16 = 0x52345678 := by
  have hinsert : (sameWords 0xBEEF9210 [0x17, 0x21, 0x00, 0x34]).Applies .v16 .insert
      ⟨.d 3, [0xBEEF9210, 0xBEEF9210], .pair, ⟨16, 16⟩⟩ :=
    .of_decoded [.reg (.d 3), .reg (.d 1), .reg (.d 2), .reg (.e 4)] (by decide +kernel)
      ⟨[.reg (.d 1), .reg (.d 2)], _, rfl, rfl, by decide, .pair (by decide) (by decide)⟩
  have hextract : (sameWords 0x92109210 [0x37, 0x01, 0x50, 0x38]).Applies .v16 (.extract .signed)
      ⟨.d 3, [0x92109210], .immediate, ⟨16, 16⟩⟩ :=
    .of_decoded [.reg (.d 3), .reg (.d 1), .imm 16, .imm 16] (by decide +kernel)
      ⟨[.reg (.d 1)], _, rfl, rfl, by decide, .immediate⟩
  have hmask : maskAndModify.Applies .v16 .mask ⟨.e 4, [0xA5], .immediate, ⟨28, 4⟩⟩ :=
    .of_decoded [.reg (.e 4), .reg (.d 1), .imm 28, .imm 4] (by decide +kernel)
      ⟨[.reg (.d 1)], _, rfl, rfl, by decide, .immediate⟩
  have hmodify : ((maskAndModify.step .v16).1.instruction? .v16).any (fun i =>
      i.mnemonic = "ldmst" ∧ i.operands = [.place (.based (.a 2) 0), .reg (.e 4)]) = true := by
    decide +kernel
  obtain ⟨i, hi, hdecoded⟩ := (Option.any_eq_true _ _).1 hmodify
  obtain ⟨hname, hops⟩ := of_decide_eq_true hdecoded
  obtain ⟨-, y, hread, hy, hfits⟩ := (fields_compose .v16 _ _ _).1 _ hinsert rfl
  obtain ⟨-, hcompletes⟩ := (fields_compose .v16 _ _ _).2 hmask rfl
  have hy : y = 0x92109210 := hy.trans (by decide)
  have hextracted := ((hfits (by decide)).2 .v16 (sameWords 0x92109210 [0x37, 0x01, 0x50, 0x38])
    ⟨.d 3, [0x92109210], .immediate, ⟨16, 16⟩⟩ (by rw [hy]) rfl).2 (by decide) hextract
  have hexchanges := (hcompletes .v16 _ i _ _ hi hname hops rfl).2 (by decide +kernel)
  have haddr : Place.address (maskAndModify.step .v16).1.core (.based (.a 2) 0) = 16 := by
    decide +kernel
  have hmemory := hexchanges.memory.number
  rw [haddr] at hmemory
  refine ⟨by rw [hread, hy]; decide, hextracted.2.trans (by decide), ?_⟩
  rw [Machine.wordAt, hmemory]
  decide +kernel

end Tricore
