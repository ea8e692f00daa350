import Mathlib
import Tricore.Proofs.Dispatch

/-!
# The bits of an encoding

Every format takes the opcodes and the fields of an instruction from slices of the raw word, some of
them put together from several slices. `Format.slices` lists them all. Two words of a format have
the same opcodes and fields exactly if they have the same bits in the slices, and the slices cover
the encoding up to the few bits that a format leaves out (`Format.ignores`).
-/

namespace Tricore

/-! ## Slices -/

theorem append_eq_append_iff {j k : Nat} {a b : BitVec j} {x y : BitVec k} :
    a ++ x = b ++ y ↔ a = b ∧ x = y := by
  refine ⟨fun h => ⟨?_, ?_⟩, fun ⟨ha, hx⟩ => ha ▸ hx ▸ rfl⟩
  · rw [← BitVec.extractLsb'_append_eq_left (a := a) (b := x), h, BitVec.extractLsb'_append_eq_left]
  · rw [← BitVec.extractLsb'_append_eq_right (a := a) (b := x), h,
      BitVec.extractLsb'_append_eq_right]

theorem setWidth_eq_setWidth_iff {j k : Nat} (h : j ≤ k) {a b : BitVec j} :
    a.setWidth k = b.setWidth k ↔ a = b := by
  refine ⟨fun heq => ?_, congrArg _⟩
  have hback := congrArg (BitVec.setWidth j) heq
  rwa [BitVec.setWidth_setWidth_of_le a h, BitVec.setWidth_setWidth_of_le b h, BitVec.setWidth_eq,
    BitVec.setWidth_eq] at hback

theorem setWidth_bitsAt (x : Word) (lo : Nat) {j k : Nat} (h : k ≤ j) :
    (bitsAt x lo j).setWidth k = bitsAt x lo k :=
  BitVec.setWidth_extractLsb'_of_le h

/-- The words have the same bits in all of the slices, each given by its lowest bit and its
length. -/
def SameIn (slices : List (Nat × Nat)) (x y : Word) : Prop :=
  ∀ s ∈ slices, bitsAt x s.1 s.2 = bitsAt y s.1 s.2

namespace SameIn

variable {x y : Word} {s : Nat × Nat} {ss ts : List (Nat × Nat)}

@[simp] theorem nil : SameIn [] x y := by simp [SameIn]

@[simp] theorem cons_iff :
    SameIn (s :: ss) x y ↔ bitsAt x s.1 s.2 = bitsAt y s.1 s.2 ∧ SameIn ss x y := by
  simp [SameIn]

@[simp] theorem append_iff : SameIn (ss ++ ts) x y ↔ SameIn ss x y ∧ SameIn ts x y := by
  simp [SameIn, or_imp, forall_and]

theorem iff_getLsbD : SameIn ss x y ↔
    ∀ i, (∃ s ∈ ss, s.1 ≤ i ∧ i < s.1 + s.2) → x.getLsbD i = y.getLsbD i := by
  constructor
  · rintro h i ⟨s, hs, hlo, hhi⟩
    have hbit := congrArg (BitVec.getLsbD · (i - s.1)) (h s hs)
    simpa [bitsAt, show i - s.1 < s.2 by omega, show s.1 + (i - s.1) = i by omega] using hbit
  · intro h s hs
    refine BitVec.eq_of_getLsbD_eq fun i hi => ?_
    simpa [bitsAt, hi] using h (s.1 + i) ⟨s, hs, by omega, by omega⟩

end SameIn

/-! ## The slices of a format -/

namespace Format

/-- The slice of the secondary opcode. Only its low eight bits select. -/
def secondarySlices (f : Format) : List (Nat × Nat) :=
  (f.secondaryField?.map fun field => (field.1, min field.2 8)).toList

def registerSlices (f : Format) : List (Nat × Nat) :=
  if f.isShort then [(8, 4), (12, 4)] else [(8, 4), (12, 4), (24, 4), (28, 4)]

/-- The parts of the offset, from the top. -/
def offsetSlices : Format → List (Nat × Nat)
  | abs | absb => [(12, 4), (22, 4), (28, 4), (16, 6)]
  | bo => [(28, 4), (16, 6)]
  | bol => [(22, 6), (28, 4), (16, 6)]
  | slro | sro | ssro => [(12, 4)]
  | _ => []

/-- The parts of the displacement, from the top. -/
def dispSlices : Format → List (Nat × Nat)
  | b => [(8, 8), (16, 16)]
  | brc | brn | brr => [(16, 15)]
  | sb => [(8, 8)]
  | sbc | sbr | sbrn => [(8, 4)]
  | _ => []

/-- The parts of the shift count, bit index or scale, from the top. -/
def indexSlices : Format → List (Nat × Nat)
  | brn => [(7, 1), (12, 4)]
  | rr | rr1 | rrr | rrr1 => [(16, 2)]
  | sbrn => [(12, 4)]
  | srrs => [(6, 2)]
  | _ => []

/-- The fields that are one slice each: constant, positions, width and bit. -/
def plainSlices : Format → List (Nat × Nat)
  | absb => [(8, 3), (11, 1)]
  | bit => [(16, 5), (23, 5)]
  | brc | rcrr | sbc | src => [(12, 4)]
  | rc | rcr => [(12, 9)]
  | rcpw => [(12, 4), (16, 5), (23, 5)]
  | rcrw => [(12, 4), (16, 5)]
  | rlc => [(12, 16)]
  | rrpw => [(16, 5), (23, 5)]
  | rrrw => [(16, 5)]
  | sc => [(8, 8)]
  | _ => []

def fieldSlices (f : Format) : List (Nat × Nat) :=
  f.registerSlices ++ f.offsetSlices ++ f.dispSlices ++ f.indexSlices ++ f.plainSlices

/-- All slices of the word that the format reads. -/
def slices (f : Format) : List (Nat × Nat) :=
  (0, f.primaryBits) :: (f.secondarySlices ++ f.fieldSlices)

/-- The bits of an encoding that the format leaves out. -/
def ignores : Format → Nat → Bool
  | rcrr, i | rrrr, i => decide (16 ≤ i ∧ i ≤ 20)
  | rr, i | rrr, i => decide (18 ≤ i ∧ i ≤ 19)
  | sys, i => decide (16 ≤ i ∧ i ≤ 21)
  | _, _ => false

theorem mem_all (f : Format) : f ∈ all := by cases f <;> decide

/-- The slices cover the encoding but for the bits that are left out, and nothing else. -/
theorem mem_slices_iff (f : Format) (i : Nat) :
    (∃ s ∈ f.slices, s.1 ≤ i ∧ i < s.1 + s.2) ↔ i < 8 * f.length ∧ f.ignores i = false := by
  have hall : ∀ f ∈ all, 8 * f.length ≤ 32 ∧ (∀ s ∈ f.slices, s.1 + s.2 ≤ 32) ∧
      ∀ i < 32, (∃ s ∈ f.slices, s.1 ≤ i ∧ i < s.1 + s.2) ↔
        i < 8 * f.length ∧ f.ignores i = false := by
    decide +kernel
  obtain ⟨hlength, hslices, hbits⟩ := hall f f.mem_all
  by_cases hi : i < 32
  · exact hbits i hi
  · refine iff_of_false ?_ fun ⟨hlt, _⟩ => hi (hlt.trans_le hlength)
    rintro ⟨s, hs, -, hhi⟩
    exact hi (hhi.trans_le (hslices s hs))

variable {f : Format} {x y : Word}

theorem secondary?_eq_iff : f.secondary? x = f.secondary? y ↔ SameIn f.secondarySlices x y := by
  unfold secondary? secondarySlices
  cases hfield : f.secondaryField? with
  | none => simp
  | some field =>
    simp only [Option.map_some, Option.some.injEq, Option.toList_some, SameIn.cons_iff, SameIn.nil,
      and_true]
    rcases le_total field.2 8 with hle | hle
    · rw [setWidth_eq_setWidth_iff hle, min_eq_left hle]
    · rw [setWidth_bitsAt _ _ hle, setWidth_bitsAt _ _ hle, min_eq_right hle]

end Format

namespace Fields

variable {f : Format} {x y : Word}

theorem offset18_eq_iff :
    offset18 x = offset18 y ↔ SameIn [(12, 4), (22, 4), (28, 4), (16, 6)] x y := by
  simp only [SameIn.cons_iff, SameIn.nil, and_true, ← and_assoc]
  exact append_eq_append_iff.trans (and_congr_left' (append_eq_append_iff.trans
    (and_congr_left' append_eq_append_iff)))

theorem offset16_eq_iff : offset16 x = offset16 y ↔ SameIn [(22, 6), (28, 4), (16, 6)] x y := by
  simp only [SameIn.cons_iff, SameIn.nil, and_true, ← and_assoc]
  exact append_eq_append_iff.trans (and_congr_left' append_eq_append_iff)

theorem offset10_eq_iff : offset10 x = offset10 y ↔ SameIn [(28, 4), (16, 6)] x y := by
  simp only [SameIn.cons_iff, SameIn.nil, and_true]
  exact append_eq_append_iff

/-- The offset determines all its parts. -/
theorem off_extract_eq_iff :
    (extract f x).off = (extract f y).off ↔ SameIn f.offsetSlices x y := by
  cases f with
  | abs | absb => exact offset18_eq_iff
  | bo => exact (setWidth_eq_setWidth_iff (by decide)).trans offset10_eq_iff
  | bol => exact (setWidth_eq_setWidth_iff (by decide)).trans offset16_eq_iff
  | _ => simp [extract, registers, Format.isShort, Format.offsetSlices, setWidth_eq_setWidth_iff]

theorem disp_extract_eq_iff :
    (extract f x).disp = (extract f y).disp ↔ SameIn f.dispSlices x y := by
  cases f with
  | b =>
    simp only [Format.dispSlices, SameIn.cons_iff, SameIn.nil, and_true]
    exact append_eq_append_iff
  | _ => simp [extract, registers, Format.isShort, Format.dispSlices, setWidth_eq_setWidth_iff]

theorem n_extract_eq_iff :
    (extract f x).n = (extract f y).n ↔ SameIn f.indexSlices x y := by
  cases f with
  | brn =>
    simp only [Format.indexSlices, SameIn.cons_iff, SameIn.nil, and_true]
    exact append_eq_append_iff
  | _ => simp [extract, registers, Format.isShort, Format.indexSlices, setWidth_eq_setWidth_iff]

theorem eq_iff {p q : Fields} : p = q ↔
    ((p.a = q.a ∧ p.b = q.b ∧ p.c = q.c ∧ p.d = q.d) ∧ p.off = q.off ∧ p.disp = q.disp ∧
      p.n = q.n) ∧ p.const = q.const ∧ p.pos = q.pos ∧ p.pos2 = q.pos2 ∧ p.width = q.width ∧
        p.bit = q.bit := by
  cases p
  cases q
  simp only [mk.injEq]
  tauto

/-- The fields of a word determine its bits in the slices that they are taken from. -/
theorem extract_eq_iff : extract f x = extract f y ↔ SameIn f.fieldSlices x y := by
  rw [eq_iff, off_extract_eq_iff, disp_extract_eq_iff, n_extract_eq_iff]
  cases f <;> simp [extract, registers, Format.isShort, Format.fieldSlices, Format.registerSlices,
    Format.offsetSlices, Format.dispSlices, Format.indexSlices, Format.plainSlices,
    setWidth_eq_setWidth_iff] <;> tauto

end Fields

/-! ## Words of a format -/

/-- The primary opcode of the word, taken for an encoding of this length, is that of a group with
the format. -/
def Format.Encodes (f : Format) (long : Bool) (raw : Word) : Prop :=
  ∃ g ∈ Opcode.table, g.format = f ∧ g.primary = Opcode.primaryOf raw long

instance (f : Format) (long : Bool) (raw : Word) : Decidable (f.Encodes long raw) :=
  inferInstanceAs (Decidable (∃ g ∈ Opcode.table, _))

namespace Format.Encodes

variable {f : Format} {long : Bool} {x y : Word}

/-- A narrow primary opcode is the only one of its format. -/
theorem primaryOf_eq_of_narrow (hx : f.Encodes long x) :
    (f = .brn → Opcode.primaryOf x long = 0x6F) ∧ (f = .srrs → Opcode.primaryOf x long = 0x10) := by
  obtain ⟨g, hg, rfl, hprimary⟩ := hx
  obtain ⟨hbrn, -, hsrrs, -⟩ := Opcode.narrow_primaries g hg
  rw [← hprimary]
  exact ⟨hbrn.1, hsrrs.1⟩

/-- The primary opcode is in the low bits of the word, as many as the format gives it. -/
theorem bitsAt_zero (hx : f.Encodes long x) :
    bitsAt x 0 f.primaryBits = (Opcode.primaryOf x long).setWidth f.primaryBits := by
  obtain ⟨g, hg, rfl, hprimary⟩ := hx
  obtain ⟨hbrn, -, hsrrs, -⟩ := Opcode.narrow_primaries g hg
  have hle : g.format.primaryBits ≤ 8 := by cases g.format <;> decide
  rw [← hprimary]
  unfold Opcode.primaryOf at hprimary
  split at hprimary
  · next h =>
    simp only [Bool.and_eq_true, beq_iff_eq] at h
    rw [hprimary, hbrn.2 hprimary]
    exact h.2
  · split at hprimary
    · next h =>
      simp only [Bool.and_eq_true, beq_iff_eq] at h
      rw [hprimary, hsrrs.2 hprimary]
      exact h.2
    · rw [hprimary]
      exact Opcode.bitsAt_zero_of_le x hle

theorem primaryOf_eq_iff (hx : f.Encodes long x) (hy : f.Encodes long y) :
    Opcode.primaryOf x long = Opcode.primaryOf y long ↔ SameIn [(0, f.primaryBits)] x y := by
  simp only [SameIn.cons_iff, SameIn.nil, and_true, hx.bitsAt_zero, hy.bitsAt_zero]
  refine ⟨congrArg _, fun h => ?_⟩
  by_cases hb : f = .brn
  · rw [hx.primaryOf_eq_of_narrow.1 hb, hy.primaryOf_eq_of_narrow.1 hb]
  by_cases hs : f = .srrs
  · rw [hx.primaryOf_eq_of_narrow.2 hs, hy.primaryOf_eq_of_narrow.2 hs]
  · rw [Opcode.primaryBits_of_wide hb hs] at h
    simpa using h

end Format.Encodes

/-- Two words of a format have the same opcodes and fields exactly if they agree in every bit of the
encoding but those that the format leaves out. Offset, displacement and index alone determine the
slices that each of them is put together from. -/
theorem fields_determine_encoding {f : Format} {long : Bool} {x y : Word}
    (hx : f.Encodes long x) (hy : f.Encodes long y) :
    ((Opcode.primaryOf x long = Opcode.primaryOf y long ∧ f.secondary? x = f.secondary? y ∧
        Fields.extract f x = Fields.extract f y) ↔
      ∀ i < 8 * f.length, f.ignores i = false → x.getLsbD i = y.getLsbD i) ∧
    ((Fields.extract f x).off = (Fields.extract f y).off ↔ SameIn f.offsetSlices x y) ∧
    ((Fields.extract f x).disp = (Fields.extract f y).disp ↔ SameIn f.dispSlices x y) ∧
    ((Fields.extract f x).n = (Fields.extract f y).n ↔ SameIn f.indexSlices x y) := by
  refine ⟨?_, Fields.off_extract_eq_iff, Fields.disp_extract_eq_iff, Fields.n_extract_eq_iff⟩
  have hall : (Opcode.primaryOf x long = Opcode.primaryOf y long ∧
      f.secondary? x = f.secondary? y ∧ Fields.extract f x = Fields.extract f y) ↔
      SameIn f.slices x y := by
    rw [hx.primaryOf_eq_iff hy, Format.secondary?_eq_iff, Fields.extract_eq_iff, Format.slices]
    simp
  rw [hall, SameIn.iff_getLsbD]
  simp only [Format.mem_slices_iff, and_imp]

/-- The bit branches on bits 3 and 19 of `d1` have their primary opcode in common, not the index. -/
theorem fields_determine_encoding_index :
    Format.Encodes .brn true 0x316F ∧ Format.Encodes .brn true 0x31EF ∧
      Opcode.primaryOf 0x316F true = Opcode.primaryOf 0x31EF true ∧
      Fields.extract .brn 0x316F ≠ Fields.extract .brn 0x31EF := by
  have hx : Format.Encodes .brn true 0x316F := by decide +kernel
  have hy : Format.Encodes .brn true 0x31EF := by decide +kernel
  refine ⟨hx, hy, rfl, fun h => ?_⟩
  have hbit := (fields_determine_encoding hx hy).1.1 ⟨rfl, rfl, h⟩ 7 (by decide) rfl
  exact absurd hbit (by decide)

end Tricore
