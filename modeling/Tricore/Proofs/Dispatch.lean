import Mathlib
import Tricore.Instruction

/-!
# Dispatch

Which row of the opcode table a word selects, said of the bits of the word alone:
`Selects word g r` compares the length bit, the primary opcode in as many bits as the format gives it,
and the secondary opcode. `Group.stamp` goes the other way and stamps the opcodes of a row onto an
arbitrary word.

Decoding finds exactly the selected row. What is left to go wrong is a register pair with an odd
index: `OperandKind.oddIndex?` reads the index off the raw word, and the first odd one in row order
is the one that is reported.
-/

namespace Tricore

/-- How many of the low bits hold the primary opcode: bit 7 of a bit branch belongs to its bit
index, bits 6 and 7 of the short scaled sum are its scale. -/
def Format.primaryBits : Format → Nat
  | .brn => 7
  | .srrs => 6
  | _ => 8

/-- The word has the length bit, the primary and the secondary opcode of the row. Of a secondary
opcode of more than eight bits, the low eight count. -/
structure Selects (word : Word) (g : Group) (r : Row) : Prop where
  group_mem : g ∈ Opcode.table
  row_mem : r ∈ g.rows
  length : word.getLsbD 0 = !g.format.isShort
  primary : bitsAt word 0 g.format.primaryBits = g.primary.setWidth g.format.primaryBits
  secondary : ∀ field, g.format.secondaryField? = some field →
    (bitsAt word field.1 field.2).setWidth 8 = r.secondary

/-! ## The table -/

namespace Opcode

/-- No number of the list is in the bit set `seen` or occurs twice. -/
def unseen (seen : Nat) : List Nat → Bool
  | [] => true
  | n :: ns => !seen.testBit n && unseen (seen ||| 1 <<< n) ns

theorem nodup_of_unseen {ns : List Nat} {seen : Nat} (h : unseen seen ns = true) :
    ns.Nodup ∧ ∀ n ∈ ns, seen.testBit n = false := by
  induction ns generalizing seen with
  | nil => simp
  | cons n ns ih =>
    simp only [unseen, Bool.and_eq_true, Bool.not_eq_true'] at h
    obtain ⟨hn, hns⟩ := h
    obtain ⟨hnd, hout⟩ := ih hns
    have hsplit : ∀ k ∈ ns, seen.testBit k = false ∧ n ≠ k := by
      intro k hk
      have := hout k hk
      rw [Nat.testBit_or, Nat.one_shiftLeft, Nat.testBit_two_pow, Bool.or_eq_false_iff] at this
      simpa using this
    refine ⟨List.nodup_cons.2 ⟨fun hmem => (hsplit n hmem).2 rfl, hnd⟩, ?_⟩
    rintro k (_ | ⟨_, hk⟩)
    · exact hn
    · exact (hsplit k hk).1

theorem primaries_nodup : (table.map (·.primary)).Nodup := by
  have h : unseen 0 ((table.map (·.primary)).map BitVec.toNat) = true := by decide +kernel
  exact (nodup_of_unseen h).1.of_map _

theorem secondaries_nodup : ∀ g ∈ table, (g.rows.map (·.secondary)).Nodup := by
  have h : ∀ g ∈ table, unseen 0 ((g.rows.map (·.secondary)).map BitVec.toNat) = true := by
    decide +kernel
  exact fun g hg => (nodup_of_unseen (h g hg)).1.of_map _

/-- Bit 0 of a primary opcode tells the length of its format. -/
theorem primary_bit_zero : ∀ g ∈ table, g.primary.getLsbD 0 = !g.format.isShort := by
  decide +kernel

/-- Seven bits tell the bit branches from all other groups, six bits the short scaled sum. -/
theorem narrow_primaries : ∀ g ∈ table,
    (g.format = .brn ↔ g.primary = 0x6F) ∧ (g.primary.setWidth 7 = 0x6F#7 → g.primary = 0x6F) ∧
    (g.format = .srrs ↔ g.primary = 0x10) ∧ (g.primary.setWidth 6 = 0x10#6 → g.primary = 0x10) := by
  decide +kernel

/-- A secondary opcode fits its field; a group without the field has one row. -/
def secondaryFits (g : Group) (r : Row) : Bool :=
  match g.format.secondaryField? with
  | none => r.secondary == 0 && g.rows.length == 1
  | some field => decide (r.secondary.toNat < 1 <<< field.2)

theorem secondaries_fit : ∀ g ∈ table, ∀ r ∈ g.rows, secondaryFits g r = true := by decide +kernel

/-- With distinct keys, searching a list for the key of a member finds that member. -/
theorem find?_eq_some_of_mem {α κ : Type} [BEq κ] [LawfulBEq κ] {key : α → κ} {l : List α}
    (hd : (l.map key).Nodup) {a : α} (ha : a ∈ l) : l.find? (key · == key a) = some a := by
  induction l with
  | nil => cases ha
  | cons b l ih =>
    rw [List.map_cons, List.nodup_cons] at hd
    rcases List.mem_cons.1 ha with rfl | ha
    · simp
    · have hne : key b ≠ key a := fun h => hd.1 (h ▸ List.mem_map_of_mem ha)
      rw [List.find?_cons_of_neg (by simpa using hne), ih hd.2 ha]

theorem group?_eq_some_iff {p : BitVec 8} {g : Group} :
    group? p = some g ↔ g ∈ table ∧ g.primary = p := by
  constructor
  · intro h
    exact ⟨List.mem_of_find?_eq_some h, by simpa using List.find?_some h⟩
  · rintro ⟨hg, rfl⟩
    exact find?_eq_some_of_mem primaries_nodup hg

theorem find?_eq_some_iff {g : Group} (hg : g ∈ table) {s : BitVec 8} {r : Row} :
    g.find? s = some r ↔ r ∈ g.rows ∧ r.secondary = s := by
  constructor
  · intro h
    exact ⟨List.mem_of_find?_eq_some h, by simpa using List.find?_some h⟩
  · rintro ⟨hr, rfl⟩
    exact find?_eq_some_of_mem (secondaries_nodup g hg) hr

/-! ## The primary opcode -/

theorem primaryBits_of_wide {f : Format} (hb : f ≠ .brn) (hs : f ≠ .srrs) :
    f.primaryBits = 8 := by
  unfold Format.primaryBits
  split <;> first | rfl | contradiction

theorem bitsAt_zero_of_le (raw : Word) {m n : Nat} (h : m ≤ n) :
    bitsAt raw 0 m = (bitsAt raw 0 n).setWidth m := by
  apply BitVec.eq_of_getLsbD_eq
  intro i hi
  simp only [bitsAt, BitVec.getLsbD_extractLsb', BitVec.getLsbD_setWidth]
  simp [hi, Nat.lt_of_lt_of_le hi h]

/-- The bits that a format gives its primary opcode agree with those of a group of the table
exactly if the primary opcode of the word is that group's. -/
theorem primaryOf_eq_iff {raw : Word} {long : Bool} (hl : raw.getLsbD 0 = long) {g : Group}
    (hg : g ∈ table) :
    primaryOf raw long = g.primary ↔ long = !g.format.isShort ∧
      bitsAt raw 0 g.format.primaryBits = g.primary.setWidth g.format.primaryBits := by
  obtain ⟨hbrn, hbrn', hsrrs, hsrrs'⟩ := narrow_primaries g hg
  have hbit := primary_bit_zero g hg
  have h7 := bitsAt_zero_of_le raw (show 7 ≤ 8 by decide)
  have h6 := bitsAt_zero_of_le raw (show 6 ≤ 8 by decide)
  have h0 : (bitsAt raw 0 8).getLsbD 0 = long := by simpa [bitsAt] using hl
  rw [← h0]
  unfold primaryOf
  by_cases hb : g.format = .brn
  · rw [hb, hbrn.1 hb, h6, Format.primaryBits, h7]
    generalize bitsAt raw 0 8 = x
    revert x
    decide +kernel
  by_cases hs : g.format = .srrs
  · rw [hs, hsrrs.1 hs, h7, Format.primaryBits, h6]
    generalize bitsAt raw 0 8 = x
    revert x
    decide +kernel
  -- The two narrow opcodes are no other group's, so here neither probe can fire on a match.
  rw [primaryBits_of_wide hb hs, h7, h6]
  generalize bitsAt raw 0 8 = x
  have hne : g.primary ≠ 0x6F ∧ g.primary ≠ 0x10 := ⟨mt hbrn.2 hb, mt hsrrs.2 hs⟩
  split
  · next h =>
    simp only [Bool.and_eq_true, beq_iff_eq] at h
    refine ⟨fun he => absurd he.symm hne.1, fun ⟨_, he⟩ => absurd (hbrn' ?_) hne.1⟩
    simp_all
  · split
    · next h =>
      simp only [Bool.and_eq_true, beq_iff_eq] at h
      refine ⟨fun he => absurd he.symm hne.2, fun ⟨_, he⟩ => absurd (hsrrs' ?_) hne.2⟩
      simp_all
    · refine ⟨fun he => ?_, fun ⟨_, he⟩ => by simpa using he⟩
      rw [he, hbit]
      simp

end Opcode

/-! ## The selected row -/

namespace Instruction

/-- An encoding as bytes give it: bit 0 tells its length, and a short one has nothing above
bit 15. -/
structure Encoding.Proper (e : Encoding) : Prop where
  bit_zero : e.raw.getLsbD 0 = e.long
  upper : e.long = false → ∀ i, 16 ≤ i → e.raw.getLsbD i = false

theorem encodingOf_proper {bytes : List Byte} {e : Encoding} (h : encodingOf bytes = .ok e) :
    e.Proper := by
  unfold encodingOf at h
  split at h
  · next b0 b1 rest =>
    by_cases hb : b0.getLsbD 0 = true
    · rw [if_pos hb] at h
      split at h
      · cases h
        refine ⟨?_, by simp⟩
        simp only [BitVec.getLsbD_append, Nat.zero_lt_succ, ↓reduceIte]
        exact hb
      · cases h
    · rw [if_neg hb] at h
      cases h
      refine ⟨?_, fun _ i hi => ?_⟩
      · simp only [BitVec.getLsbD_setWidth, BitVec.getLsbD_append, Nat.zero_lt_succ, ↓reduceIte]
        simpa using hb
      rw [BitVec.getLsbD_setWidth, BitVec.getLsbD_of_ge _ _ (by omega), Bool.and_false]
  · cases h

end Instruction

open Instruction

theorem Selects.secondary_eq {e : Encoding} {g : Group} {r : Row} (h : Selects e.raw g r) :
    (g.format.secondary? e.raw).getD 0 = r.secondary := by
  have hfit := Opcode.secondaries_fit g h.group_mem r h.row_mem
  unfold Opcode.secondaryFits at hfit
  unfold Format.secondary?
  cases hf : g.format.secondaryField? with
  | none => simp_all
  | some field => exact h.secondary field hf

theorem Selects.group?_eq {e : Encoding} {g : Group} {r : Row} (he : e.Proper)
    (h : Selects e.raw g r) : Opcode.group? (Opcode.primaryOf e.raw e.long) = some g := by
  have hlong : e.long = !g.format.isShort := he.bit_zero ▸ h.length
  exact Opcode.group?_eq_some_iff.2 ⟨h.group_mem,
    ((Opcode.primaryOf_eq_iff he.bit_zero h.group_mem).2 ⟨hlong, h.primary⟩).symm⟩

theorem Selects.find?_eq {e : Encoding} {g : Group} {r : Row} (h : Selects e.raw g r) :
    g.find? ((g.format.secondary? e.raw).getD 0) = some r :=
  (Opcode.find?_eq_some_iff h.group_mem).2 ⟨h.row_mem, h.secondary_eq.symm⟩

theorem selects_of_find? {e : Encoding} {g : Group} {r : Row} (he : e.Proper)
    (hg : Opcode.group? (Opcode.primaryOf e.raw e.long) = some g)
    (hr : g.find? ((g.format.secondary? e.raw).getD 0) = some r) : Selects e.raw g r := by
  obtain ⟨hmem, hp⟩ := Opcode.group?_eq_some_iff.1 hg
  obtain ⟨hrow, hs⟩ := (Opcode.find?_eq_some_iff hmem).1 hr
  obtain ⟨hlong, hbits⟩ := (Opcode.primaryOf_eq_iff he.bit_zero hmem).1 hp.symm
  refine ⟨hmem, hrow, he.bit_zero.trans hlong, hbits, fun field hf => ?_⟩
  rw [hs, Format.secondary?, hf]
  rfl

/-- No two rows share an encoding. -/
theorem Selects.unique {e : Encoding} {g g' : Group} {r r' : Row} (he : e.Proper)
    (h : Selects e.raw g r) (h' : Selects e.raw g' r') : g' = g ∧ r' = r := by
  have hg : g' = g := Option.some.inj ((h'.group?_eq he).symm.trans (h.group?_eq he))
  subst hg
  exact ⟨rfl, Option.some.inj (h'.find?_eq.symm.trans h.find?_eq)⟩

namespace Instruction

/-- Decoding goes by the selected row alone. -/
theorem ofEncoding_of_selects {isa : Isa} {e : Encoding} {g : Group} {r : Row} {addr : Address}
    (he : e.Proper) (h : Selects e.raw g r) :
    ofEncoding isa e addr =
      if isa.supports r.since then
        (Except.map (⟨addr, e.length, e.raw, g.primary, g.format, r, ·⟩)
          (r.operands.mapM (·.resolve g.format (.extract g.format e.raw) addr))).mapError
          (.oddPair addr r.mnemonic · e.length)
      else .error (.requiresV16 addr r.mnemonic e.length) := by
  have hg := h.group?_eq he
  have hp := (Opcode.group?_eq_some_iff.1 hg).2
  rw [← hp] at hg
  simp only [ofEncoding, ← hp, hg, h.find?_eq]
  cases r.operands.mapM (·.resolve g.format (.extract g.format e.raw) addr) <;> rfl

theorem ofEncoding_of_not_selects {isa : Isa} {e : Encoding} {addr : Address} (he : e.Proper)
    (h : ¬ ∃ g r, Selects e.raw g r) :
    (∃ p, ofEncoding isa e addr = .error (.unknownPrimary addr p)) ∨
      ∃ p s, ofEncoding isa e addr = .error (.unknownSecondary addr p s) := by
  cases hg : Opcode.group? (Opcode.primaryOf e.raw e.long) with
  | none => exact .inl ⟨_, by simp only [ofEncoding, hg]; rfl⟩
  | some g =>
    cases hr : g.find? ((g.format.secondary? e.raw).getD 0) with
    | none => exact .inr ⟨_, _, by simp only [ofEncoding, hg, hr]; rfl⟩
    | some r => exact absurd ⟨g, r, selects_of_find? he hg hr⟩ h

end Instruction

/-! ## Register pairs -/

/-- Lowest bit of a register field. -/
def RegisterField.lowBit (format : Format) : RegisterField → Nat
  | a => 8
  | b => if format = .sro then 8 else 12
  | c => 28
  | d => 24

/-- The register field that names a pair. -/
def OperandKind.pairField? : OperandKind → Option RegisterField
  | dataPair f | addressPair f => some f
  | based .bitReverse | based .circular => some .b
  | _ => none

/-- The index of a register pair in a raw word, if it is odd. -/
def OperandKind.oddIndex? (format : Format) (raw : Word) (kind : OperandKind) : Option Nat :=
  match kind.pairField? with
  | none => none
  | some f =>
    let n := (bitsAt raw (f.lowBit format) 4).toNat
    if n % 2 = 1 then some n else none

/-- The index of the pair that an operand names. -/
def Operand.pairIndex? : Operand → Option Nat
  | reg (.e n) | reg (.p n) => some n
  | place (.bitReverse (.e n)) | place (.bitReverse (.p n)) => some n
  | place (.circular (.e n) _) | place (.circular (.p n) _) => some n
  | _ => none

/-- A register that a row fixes is one of the sixteen data or address registers. -/
def OperandKind.fixesSingle : OperandKind → Bool
  | fixed (.d n) | fixed (.a n) => n < 16
  | fixed _ => false
  | _ => true

theorem Opcode.fixed_single : ∀ g ∈ table, ∀ r ∈ g.rows, ∀ k ∈ r.operands,
    k.fixesSingle = true := by decide +kernel

/-- Short encodings name their pairs in the low half-word. -/
theorem Opcode.short_pairs : ∀ g ∈ table, g.format.isShort = true → ∀ r ∈ g.rows,
    ∀ k ∈ r.operands, k.pairField? ≠ some .c ∧ k.pairField? ≠ some .d := by decide +kernel

section Fields

variable (format : Format) (raw : Word)

theorem extract_a : (Fields.extract format raw).a = bitsAt raw 8 4 := by
  cases format <;> rfl

theorem extract_b :
    (Fields.extract format raw).b = if format = .sro then bitsAt raw 8 4 else bitsAt raw 12 4 := by
  cases format <;> rfl

theorem extract_c :
    (Fields.extract format raw).c = if format.isShort then 0 else bitsAt raw 28 4 := by
  cases format <;> rfl

theorem extract_d :
    (Fields.extract format raw).d = if format.isShort then 0 else bitsAt raw 24 4 := by
  cases format <;> rfl

end Fields

theorem index_extract {format : Format} {raw : Word} (f : RegisterField)
    (h : format.isShort = true → f ≠ .c ∧ f ≠ .d) :
    f.index (.extract format raw) = (bitsAt raw (f.lowBit format) 4).toNat := by
  cases f with
  | a => rw [RegisterField.index, extract_a, RegisterField.lowBit]
  | b =>
    rw [RegisterField.index, extract_b, RegisterField.lowBit]
    split <;> rfl
  | c =>
    rw [RegisterField.index, extract_c, RegisterField.lowBit, if_neg fun hs => (h hs).1 rfl]
  | d =>
    rw [RegisterField.index, extract_d, RegisterField.lowBit, if_neg fun hs => (h hs).2 rfl]

namespace OperandKind

variable {raw : Word} (format : Format) (addr : Address)

theorem pair_of_odd {n : Nat} {o : Operand} (h : n % 2 = 1) : pair n o = .error n := if_pos h

theorem pair_of_even {n : Nat} {o : Operand} (h : ¬ n % 2 = 1) : pair n o = .ok o := if_neg h

/-- An operand kind that takes no pair can always be read. -/
theorem resolve_of_single {k : OperandKind} (hf : k.fixesSingle = true)
    (hk : k.pairField? = none) (f : Fields) :
    ∃ o, k.resolve format f addr = .ok o ∧ o.pairIndex? = none := by
  cases k with
  | dataPair | addressPair => cases hk
  | based mode => cases mode <;> first | exact ⟨_, rfl, rfl⟩ | cases hk
  | fixed r => cases r <;> first | exact ⟨_, rfl, rfl⟩ | cases hf
  | _ => exact ⟨_, rfl, rfl⟩

/-- A kind that takes a pair reads the index of its field, and fails if that is odd. -/
theorem resolve_of_pair {k : OperandKind} {f : RegisterField} (hk : k.pairField? = some f)
    (fields : Fields) :
    ∃ o, k.resolve format fields addr = pair (f.index fields) o ∧
      o.pairIndex? = some (f.index fields) := by
  cases k with
  | dataPair | addressPair => cases hk; exact ⟨_, rfl, rfl⟩
  | based mode => cases mode <;> cases hk <;> exact ⟨_, rfl, rfl⟩
  | _ => cases hk

theorem resolve_of_oddIndex? {k : OperandKind} {n : Nat}
    (hs : format.isShort = true → k.pairField? ≠ some .c ∧ k.pairField? ≠ some .d)
    (h : k.oddIndex? format raw = some n) :
    k.resolve format (.extract format raw) addr = .error n := by
  unfold oddIndex? at h
  cases hk : k.pairField? with
  | none => simp [hk] at h
  | some f =>
    obtain ⟨o, ho, -⟩ := resolve_of_pair format addr hk (.extract format raw)
    rw [ho, index_extract f (by simpa [hk] using hs)]
    simp only [hk] at h
    split at h
    · next hodd => cases h; exact pair_of_odd hodd
    · cases h

theorem resolve_of_even {k : OperandKind} (hf : k.fixesSingle = true)
    (hs : format.isShort = true → k.pairField? ≠ some .c ∧ k.pairField? ≠ some .d)
    (h : k.oddIndex? format raw = none) :
    ∃ o, k.resolve format (.extract format raw) addr = .ok o ∧
      ∀ n, o.pairIndex? = some n → n % 2 = 0 := by
  cases hk : k.pairField? with
  | none =>
    obtain ⟨o, ho, hi⟩ := resolve_of_single format addr hf hk (.extract format raw)
    exact ⟨o, ho, by simp [hi]⟩
  | some f =>
    obtain ⟨o, ho, hi⟩ := resolve_of_pair format addr hk (.extract format raw)
    rw [index_extract f (by simpa [hk] using hs)] at ho hi
    simp only [oddIndex?, hk, ite_eq_right_iff, reduceCtorEq, imp_false] at h
    refine ⟨o, ho.trans (pair_of_even h), fun n hn => ?_⟩
    rw [hi] at hn
    cases hn
    omega

/-- The first odd pair in row order is the one that is reported. -/
theorem mapM_resolve_of_odd {ks : List OperandKind} {n : Nat} (hf : ∀ k ∈ ks, k.fixesSingle = true)
    (hs : format.isShort = true → ∀ k ∈ ks, k.pairField? ≠ some .c ∧ k.pairField? ≠ some .d)
    (h : ks.findSome? (·.oddIndex? format raw) = some n) :
    ks.mapM (·.resolve format (.extract format raw) addr) = .error n := by
  induction ks with
  | nil => cases h
  | cons k ks ih =>
    have hs' := fun hshort => List.forall_mem_cons.1 (hs hshort)
    rw [List.mapM_cons]
    cases hk : k.oddIndex? format raw with
    | some m =>
      rw [List.findSome?_cons, hk] at h
      cases h
      rw [resolve_of_oddIndex? format addr (fun hshort => (hs' hshort).1) hk]
      rfl
    | none =>
      rw [List.findSome?_cons, hk] at h
      obtain ⟨o, ho, -⟩ := resolve_of_even format addr (hf k (by simp))
        (fun hshort => (hs' hshort).1) hk
      rw [ho, ih (fun k hk => hf k (by simp [hk])) (fun hshort => (hs' hshort).2) h]
      rfl

theorem mapM_resolve_of_even {ks : List OperandKind} (hf : ∀ k ∈ ks, k.fixesSingle = true)
    (hs : format.isShort = true → ∀ k ∈ ks, k.pairField? ≠ some .c ∧ k.pairField? ≠ some .d)
    (h : ks.findSome? (·.oddIndex? format raw) = none) :
    ∃ os, ks.mapM (·.resolve format (.extract format raw) addr) = .ok os ∧
      ∀ o ∈ os, ∀ n, o.pairIndex? = some n → n % 2 = 0 := by
  induction ks with
  | nil => exact ⟨[], rfl, by simp⟩
  | cons k ks ih =>
    have hs' := fun hshort => List.forall_mem_cons.1 (hs hshort)
    rw [List.findSome?_eq_none_iff, List.forall_mem_cons] at h
    obtain ⟨hk, hks⟩ := h
    obtain ⟨o, ho, heven⟩ := resolve_of_even format addr (hf k (by simp))
      (fun hshort => (hs' hshort).1) hk
    obtain ⟨os, hos, hevens⟩ := ih (fun k hk => hf k (by simp [hk])) (fun hshort => (hs' hshort).2)
      (List.findSome?_eq_none_iff.2 hks)
    refine ⟨o :: os, ?_, List.forall_mem_cons.2 ⟨heven, hevens⟩⟩
    rw [List.mapM_cons, ho, hos]
    rfl

end OperandKind

/-! ## Words and bytes -/

/-- The bytes of an encoding of this format, lowest first. -/
def Format.bytesOf (f : Format) (word : Word) : List Byte :=
  [bitsAt word 0 8, bitsAt word 8 8] ++
    if f.isShort then [] else [bitsAt word 16 8, bitsAt word 24 8]

/-- Bits from `lo` up replaced. -/
def stampBits (word : Word) (lo : Nat) {len : Nat} (v : BitVec len) : Word :=
  word &&& ~~~((BitVec.allOnes len).setWidth 32 <<< lo) ||| v.setWidth 32 <<< lo

/-- The opcodes of a row forced onto an arbitrary word. -/
def Group.stamp (g : Group) (r : Row) (filler : Word) : Word :=
  let word := stampBits filler 0 (g.primary.setWidth g.format.primaryBits)
  match g.format.secondaryField? with
  | none => word
  | some field => stampBits word field.1 (r.secondary.setWidth field.2)

theorem Format.secondaryField?_bounds {f : Format} {field : Nat × Nat}
    (h : f.secondaryField? = some field) :
    f.primaryBits ≤ field.1 ∧ field.1 + field.2 ≤ 32 ∧
      (f.isShort = true → field.1 + field.2 ≤ 16) := by
  cases f <;> cases h <;> decide

theorem getLsbD_stampBits (word : Word) (lo : Nat) {len : Nat} (v : BitVec len) (i : Nat)
    (hi : i < 32) :
    (stampBits word lo v).getLsbD i =
      if lo ≤ i ∧ i < lo + len then v.getLsbD (i - lo) else word.getLsbD i := by
  simp only [stampBits, BitVec.getLsbD_or, BitVec.getLsbD_and, BitVec.getLsbD_not,
    BitVec.getLsbD_shiftLeft, BitVec.getLsbD_setWidth, BitVec.getLsbD_allOnes]
  by_cases h1 : lo ≤ i
  · by_cases h2 : i < lo + len
    · simp [hi, h1, h2, show i - lo < len by omega, show ¬ i < lo by omega,
        show i - lo < 32 by omega]
    · simp [hi, h1, h2, show ¬ i - lo < len by omega, show ¬ i < lo by omega,
        BitVec.getLsbD_of_ge v (i - lo) (by omega)]
  · simp [hi, h1, show i < lo by omega]

theorem bitsAt_stampBits_self (word : Word) {lo len : Nat} (v : BitVec len) (h : lo + len ≤ 32) :
    bitsAt (stampBits word lo v) lo len = v := by
  apply BitVec.eq_of_getLsbD_eq
  intro i hi
  rw [bitsAt, BitVec.getLsbD_extractLsb', getLsbD_stampBits _ _ _ _ (by omega), if_pos (by omega),
    show lo + i - lo = i by omega]
  simp [hi]

theorem bitsAt_stampBits_below (word : Word) {lo len lo' len' : Nat} (v : BitVec len)
    (h : lo' + len' ≤ lo) (hlo : lo ≤ 32) :
    bitsAt (stampBits word lo v) lo' len' = bitsAt word lo' len' := by
  apply BitVec.eq_of_getLsbD_eq
  intro i hi
  rw [bitsAt, bitsAt, BitVec.getLsbD_extractLsb', BitVec.getLsbD_extractLsb',
    getLsbD_stampBits _ _ _ _ (by omega), if_neg (by omega)]

theorem Format.primaryBits_bounds (f : Format) : 1 ≤ f.primaryBits ∧ f.primaryBits ≤ 8 := by
  cases f <;> decide

/-- The stamped word has the primary opcode in its place, whatever the secondary one is. -/
theorem bitsAt_stamp_primary (g : Group) (r : Row) (filler : Word) :
    bitsAt (g.stamp r filler) 0 g.format.primaryBits =
      g.primary.setWidth g.format.primaryBits := by
  have hp := g.format.primaryBits_bounds
  unfold Group.stamp
  cases hf : g.format.secondaryField? with
  | none => exact bitsAt_stampBits_self _ _ (by omega)
  | some field =>
    have hb := Format.secondaryField?_bounds hf
    exact (bitsAt_stampBits_below _ _ (by omega) (by omega)).trans
      (bitsAt_stampBits_self _ _ (by omega))

theorem bitsAt_stamp_secondary {g : Group} {r : Row} (hg : g ∈ Opcode.table) (hr : r ∈ g.rows)
    (filler : Word) {field : Nat × Nat} (hf : g.format.secondaryField? = some field) :
    (bitsAt (g.stamp r filler) field.1 field.2).setWidth 8 = r.secondary := by
  have hb := Format.secondaryField?_bounds hf
  have hfit := Opcode.secondaries_fit g hg r hr
  simp only [Opcode.secondaryFits, hf, decide_eq_true_eq, Nat.one_shiftLeft] at hfit
  simp only [Group.stamp, hf]
  rw [bitsAt_stampBits_self _ _ hb.2.1]
  apply BitVec.eq_of_toNat_eq
  rw [BitVec.toNat_setWidth, BitVec.toNat_setWidth, Nat.mod_eq_of_lt hfit,
    Nat.mod_eq_of_lt r.secondary.isLt]

/-- A stamped word selects its row. -/
theorem selects_stamp {g : Group} {r : Row} (hg : g ∈ Opcode.table) (hr : r ∈ g.rows)
    (filler : Word) : Selects (g.stamp r filler) g r := by
  refine ⟨hg, hr, ?_, bitsAt_stamp_primary g r filler, fun _ hf =>
    bitsAt_stamp_secondary hg hr filler hf⟩
  have hp := g.format.primaryBits_bounds
  have hbit := congrArg (·.getLsbD 0) (bitsAt_stamp_primary g r filler)
  simp only [bitsAt, BitVec.getLsbD_extractLsb', BitVec.getLsbD_setWidth, Nat.add_zero] at hbit
  rw [← Opcode.primary_bit_zero g hg]
  simpa [show 0 < g.format.primaryBits by omega] using hbit

namespace Instruction

/-- The encoding that the bytes of a word start with. -/
def Encoding.ofWord (word : Word) : Encoding :=
  if word.getLsbD 0 then ⟨word, true⟩ else ⟨(word.setWidth 16).setWidth 32, false⟩

theorem encodingOf_bytes (b0 b1 b2 b3 : Byte) :
    encodingOf [b0, b1, b2, b3] = .ok (.ofWord (b3 ++ b2 ++ b1 ++ b0)) := by
  have hbit : (b3 ++ b2 ++ b1 ++ b0).getLsbD 0 = b0.getLsbD 0 := by
    simp only [BitVec.getLsbD_append, Nat.zero_lt_succ, ↓reduceIte]
  have hcut : (b3 ++ b2 ++ b1 ++ b0).setWidth 16 = b1 ++ b0 := by
    apply BitVec.eq_of_getLsbD_eq
    intro i hi
    simp only [BitVec.getLsbD_setWidth, BitVec.getLsbD_append, hi]
    by_cases h8 : i < 8
    · simp [h8]
    · simp [h8, show i - 8 < 8 by omega]
  rw [Encoding.ofWord, hbit, hcut, encodingOf]
  by_cases hb : b0.getLsbD 0 = true
  · rw [if_pos hb, if_pos hb]
  · rw [if_neg hb, if_neg hb]

theorem bytes_of_word (word : Word) :
    bitsAt word 24 8 ++ bitsAt word 16 8 ++ bitsAt word 8 8 ++ bitsAt word 0 8 = word := by
  apply BitVec.eq_of_getLsbD_eq
  intro i hi
  simp only [bitsAt, BitVec.getLsbD_append, BitVec.getLsbD_extractLsb']
  by_cases h8 : i < 8
  · simp [h8]
  by_cases h16 : i < 16
  · simp [h8, show i - 8 < 8 by omega, show 8 + (i - 8) = i by omega]
  by_cases h24 : i < 24
  · simp [h8, show ¬ i - 8 < 8 by omega, show i - 8 - 8 < 8 by omega,
      show 16 + (i - 8 - 8) = i by omega]
  · simp [h8, show ¬ i - 8 < 8 by omega, show ¬ i - 8 - 8 < 8 by omega,
      show i - 8 - 8 - 8 < 8 by omega, show 24 + (i - 8 - 8 - 8) = i by omega]

/-- Two bytes are enough for a short encoding. -/
theorem encodingOf_bytesOf {f : Format} {word : Word} (h : word.getLsbD 0 = !f.isShort) :
    encodingOf (f.bytesOf word) = .ok (.ofWord word) := by
  cases hs : f.isShort with
  | false =>
    rw [Format.bytesOf, hs, if_neg Bool.false_ne_true]
    exact (encodingOf_bytes _ _ _ _).trans (by rw [bytes_of_word])
  | true =>
    have h4 := encodingOf_bytes (bitsAt word 0 8) (bitsAt word 8 8) (bitsAt word 16 8)
      (bitsAt word 24 8)
    have hb : (bitsAt word 0 8).getLsbD 0 = false := by
      simpa [bitsAt, hs] using h
    rw [bytes_of_word] at h4
    rw [← h4, Format.bytesOf, hs, if_pos rfl]
    simp only [encodingOf, List.cons_append, List.nil_append, hb, Bool.false_eq_true, ↓reduceIte]

theorem ofWord_proper (word : Word) : (Encoding.ofWord word).Proper :=
  encodingOf_proper ((encodingOf_bytes _ _ _ _).trans (by rw [bytes_of_word word]))

theorem bitsAt_ofWord (word : Word) (lo len : Nat) (h : word.getLsbD 0 = false → lo + len ≤ 16) :
    bitsAt (Encoding.ofWord word).raw lo len = bitsAt word lo len := by
  unfold Encoding.ofWord
  split
  · rfl
  · next hb =>
    have := h (by simpa using hb)
    apply BitVec.eq_of_getLsbD_eq
    intro i hi
    simp only [bitsAt, BitVec.getLsbD_extractLsb', BitVec.getLsbD_setWidth]
    simp [show lo + i < 32 by omega, show lo + i < 16 by omega]

theorem getLsbD_zero_ofWord (word : Word) :
    (Encoding.ofWord word).raw.getLsbD 0 = word.getLsbD 0 := by
  have := congrArg (·.getLsbD 0) (bitsAt_ofWord word 0 1 (by omega))
  simpa [bitsAt] using this

theorem selects_ofWord {word : Word} {g : Group} {r : Row} :
    Selects (Encoding.ofWord word).raw g r ↔ Selects word g r := by
  have hshort : word.getLsbD 0 = (!g.format.isShort) → word.getLsbD 0 = false →
      g.format.isShort = true := by
    intro h h'
    rw [h'] at h
    simpa using h.symm
  have hprim : bitsAt (Encoding.ofWord word).raw 0 g.format.primaryBits =
      bitsAt word 0 g.format.primaryBits :=
    bitsAt_ofWord word _ _ fun _ => by have := g.format.primaryBits_bounds; omega
  have hsec : word.getLsbD 0 = (!g.format.isShort) → ∀ field,
      g.format.secondaryField? = some field →
      bitsAt (Encoding.ofWord word).raw field.1 field.2 = bitsAt word field.1 field.2 :=
    fun h field hf => bitsAt_ofWord word _ _ fun h0 =>
      (Format.secondaryField?_bounds hf).2.2 (hshort h h0)
  constructor
  · rintro ⟨hg, hr, hl, hp, hs⟩
    rw [getLsbD_zero_ofWord] at hl
    exact ⟨hg, hr, hl, hprim ▸ hp, fun field hf => hsec hl field hf ▸ hs field hf⟩
  · rintro ⟨hg, hr, hl, hp, hs⟩
    exact ⟨hg, hr, (getLsbD_zero_ofWord word).trans hl, hprim.trans hp,
      fun field hf => (hsec hl field hf).symm ▸ hs field hf⟩

/-! ## Decoding -/

section Decoding

variable {bytes : List Byte} {word : Word} {g : Group} {r : Row} (isa : Isa) (addr : Address)

theorem decode_eq_ofEncoding (hb : encodingOf bytes = .ok (.ofWord word)) :
    decode isa bytes addr = ofEncoding isa (.ofWord word) addr := by
  rw [decode, hb]

theorem length_ofWord (h : Selects word g r) : (Encoding.ofWord word).length = g.format.length := by
  have hl := h.length
  unfold Encoding.ofWord Encoding.length Format.length
  cases hs : g.format.isShort <;> simp_all

/-- Odd indices are the same in the word and in its encoding. -/
theorem oddIndex?_ofWord (h : Selects word g r) {k : OperandKind} (hk : k ∈ r.operands) :
    k.oddIndex? g.format (Encoding.ofWord word).raw = k.oddIndex? g.format word := by
  unfold OperandKind.oddIndex?
  cases hf : k.pairField? with
  | none => rfl
  | some f =>
    have hbits := bitsAt_ofWord word (f.lowBit g.format) 4 fun h0 => by
      have hshort : g.format.isShort = true := by
        have := h.length
        rw [h0] at this
        simpa using this.symm
      have hcd := Opcode.short_pairs g h.group_mem hshort r h.row_mem k hk
      cases f <;> simp_all [RegisterField.lowBit]
      split <;> omega
    simp only [hbits]

theorem findSome?_oddIndex?_ofWord (h : Selects word g r) :
    r.operands.findSome? (·.oddIndex? g.format (Encoding.ofWord word).raw) =
      r.operands.findSome? (·.oddIndex? g.format word) := by
  have hks := fun k (hk : k ∈ r.operands) => oddIndex?_ofWord h hk
  revert hks
  generalize r.operands = ks
  intro hks
  induction ks with
  | nil => rfl
  | cons k ks ih =>
    rw [List.forall_mem_cons] at hks
    rw [List.findSome?_cons, List.findSome?_cons, hks.1, ih hks.2]

theorem decode_of_late (hb : encodingOf bytes = .ok (.ofWord word)) (h : Selects word g r)
    (hv : isa.supports r.since = false) :
    decode isa bytes addr = .error (.requiresV16 addr r.mnemonic g.format.length) := by
  rw [decode_eq_ofEncoding isa addr hb, ofEncoding_of_selects (ofWord_proper word) (selects_ofWord.2 h),
    length_ofWord h, hv]
  rfl

theorem decode_of_odd (hb : encodingOf bytes = .ok (.ofWord word)) (h : Selects word g r)
    (hv : isa.supports r.since = true) {n : Nat}
    (hn : r.operands.findSome? (·.oddIndex? g.format word) = some n) :
    decode isa bytes addr = .error (.oddPair addr r.mnemonic n g.format.length) := by
  rw [← findSome?_oddIndex?_ofWord h] at hn
  rw [decode_eq_ofEncoding isa addr hb, ofEncoding_of_selects (ofWord_proper word) (selects_ofWord.2 h),
    length_ofWord h, hv, if_pos rfl,
    OperandKind.mapM_resolve_of_odd _ _ (Opcode.fixed_single g h.group_mem r h.row_mem)
      (fun hs => Opcode.short_pairs g h.group_mem hs r h.row_mem) hn]
  rfl

theorem decode_of_even (hb : encodingOf bytes = .ok (.ofWord word)) (h : Selects word g r)
    (hv : isa.supports r.since = true)
    (hn : r.operands.findSome? (·.oddIndex? g.format word) = none) :
    ∃ i, decode isa bytes addr = .ok i ∧ i.row = r ∧ i.primary = g.primary ∧
      i.format = g.format ∧ i.length = g.format.length ∧
      ∀ o ∈ i.operands, ∀ n, o.pairIndex? = some n → n % 2 = 0 := by
  rw [← findSome?_oddIndex?_ofWord h] at hn
  obtain ⟨os, hos, heven⟩ := OperandKind.mapM_resolve_of_even g.format addr
    (Opcode.fixed_single g h.group_mem r h.row_mem)
    (fun hs => Opcode.short_pairs g h.group_mem hs r h.row_mem) hn
  rw [decode_eq_ofEncoding isa addr hb, ofEncoding_of_selects (ofWord_proper word) (selects_ofWord.2 h),
    length_ofWord h, hv, if_pos rfl, hos]
  exact ⟨_, rfl, rfl, rfl, rfl, rfl, heven⟩

theorem decode_of_not_selects (hb : encodingOf bytes = .ok (.ofWord word))
    (h : ¬ ∃ g r, Selects word g r) :
    (∃ p, decode isa bytes addr = .error (.unknownPrimary addr p)) ∨
      ∃ p s, decode isa bytes addr = .error (.unknownSecondary addr p s) := by
  simp only [decode_eq_ofEncoding isa addr hb]
  exact ofEncoding_of_not_selects (ofWord_proper word) (by simpa only [selects_ofWord] using h)

theorem supports_eq_false_iff {isa since : Isa} :
    isa.supports since = false ↔ since = .v16 ∧ isa = .v13 := by
  cases isa <;> cases since <;> decide

/-- A supported row comes out whole, or its first odd pair is reported. -/
theorem decode_of_supported (hb : encodingOf bytes = .ok (.ofWord word)) (h : Selects word g r)
    (hv : isa.supports r.since = true) :
    ((∃ i, decode isa bytes addr = .ok i ∧ i.row = r ∧ i.primary = g.primary ∧
        ∀ o ∈ i.operands, ∀ n, o.pairIndex? = some n → n % 2 = 0) ↔
      ∀ k ∈ r.operands, k.oddIndex? g.format word = none) ∧
    ∀ n, decode isa bytes addr = .error (.oddPair addr r.mnemonic n g.format.length) ↔
      r.operands.findSome? (·.oddIndex? g.format word) = some n := by
  rw [← List.findSome?_eq_none_iff]
  cases hn : r.operands.findSome? (·.oddIndex? g.format word) with
  | none =>
    obtain ⟨i, hi, hrow, hprim, -, -, heven⟩ := decode_of_even isa addr hb h hv hn
    simp only [hi, reduceCtorEq, implies_true, and_true, iff_true]
    exact ⟨i, rfl, hrow, hprim, heven⟩
  | some m =>
    rw [decode_of_odd isa addr hb h hv hn]
    simp [eq_comm]

/-- A word that selects a row is refused for the row's revision or for an odd pair only. -/
theorem decode_of_selects (hb : encodingOf bytes = .ok (.ofWord word)) (h : Selects word g r) :
    (isa.supports r.since = false ∧
      decode isa bytes addr = .error (.requiresV16 addr r.mnemonic g.format.length)) ∨
    (isa.supports r.since = true ∧
      ((∃ i, decode isa bytes addr = .ok i) ∨
        ∃ n, decode isa bytes addr = .error (.oddPair addr r.mnemonic n g.format.length))) := by
  cases hv : isa.supports r.since with
  | false => exact .inl ⟨rfl, decode_of_late isa addr hb h hv⟩
  | true =>
    refine .inr ⟨rfl, ?_⟩
    cases hn : r.operands.findSome? (·.oddIndex? g.format word) with
    | none =>
      obtain ⟨i, hi, -⟩ := decode_of_even isa addr hb h hv hn
      exact .inl ⟨i, hi⟩
    | some n => exact .inr ⟨n, decode_of_odd isa addr hb h hv hn⟩

theorem decode_unknown_iff (hb : encodingOf bytes = .ok (.ofWord word)) :
    ((∃ p, decode isa bytes addr = .error (.unknownPrimary addr p)) ∨
        ∃ p s, decode isa bytes addr = .error (.unknownSecondary addr p s)) ↔
      ¬ ∃ g r, Selects word g r := by
  refine ⟨?_, decode_of_not_selects isa addr hb⟩
  rintro hunknown ⟨g, r, h⟩
  rcases decode_of_selects isa addr hb h with
    ⟨-, hd⟩ | ⟨-, ⟨i, hd⟩ | ⟨n, hd⟩⟩ <;> simp [hd] at hunknown

theorem decode_requiresV16_iff (hb : encodingOf bytes = .ok (.ofWord word)) :
    (∃ m n, decode isa bytes addr = .error (.requiresV16 addr m n)) ↔
      ∃ g r, Selects word g r ∧ r.since = .v16 ∧ isa = .v13 := by
  constructor
  · rintro ⟨m, n, hlate⟩
    by_cases hsel : ∃ g r, Selects word g r
    · obtain ⟨g, r, h⟩ := hsel
      rcases decode_of_selects isa addr hb h with
        ⟨hv, -⟩ | ⟨-, ⟨i, hd⟩ | ⟨n, hd⟩⟩
      · exact ⟨g, r, h, supports_eq_false_iff.1 hv⟩
      · rw [hd] at hlate; cases hlate
      · rw [hd] at hlate; cases hlate
    · rcases decode_of_not_selects isa addr hb hsel with ⟨p, hd⟩ | ⟨p, s, hd⟩
      · rw [hd] at hlate; cases hlate
      · rw [hd] at hlate; cases hlate
  · rintro ⟨g, r, h, hv⟩
    exact ⟨_, _, decode_of_late isa addr hb h (supports_eq_false_iff.2 hv)⟩

/-- **Dispatch is exact.** A row's opcodes forced onto any word decode to that row, or to the
report of its first odd pair; and whatever four bytes are given, the outcome follows from the one
row they select, if there is one. -/
theorem decode_exact :
    (∀ g ∈ Opcode.table, ∀ r ∈ g.rows, ∀ (filler : Word) (addr : Address),
      let word := g.stamp r filler
      let result := decode .v16 (g.format.bytesOf word) addr
      ((∃ i, result = .ok i ∧ i.row = r ∧ i.primary = g.primary) ↔
        ∀ k ∈ r.operands, k.oddIndex? g.format word = none) ∧
      ∀ n, result = .error (.oddPair addr r.mnemonic n g.format.length) ↔
        r.operands.findSome? (·.oddIndex? g.format word) = some n) ∧
    ∀ (isa : Isa) (b0 b1 b2 b3 : Byte) (addr : Address),
      let word := b3 ++ b2 ++ b1 ++ b0
      let result := decode isa [b0, b1, b2, b3] addr
      (((∃ p, result = .error (.unknownPrimary addr p)) ∨
          ∃ p s, result = .error (.unknownSecondary addr p s)) ↔ ¬ ∃ g r, Selects word g r) ∧
      ((∃ m n, result = .error (.requiresV16 addr m n)) ↔
        ∃ g r, Selects word g r ∧ r.since = .v16 ∧ isa = .v13) ∧
      ∀ g r, Selects word g r →
        (∀ g' r', Selects word g' r' → g' = g ∧ r' = r) ∧
        (isa.supports r.since = true →
          ((∃ i, result = .ok i ∧ i.row = r ∧ i.primary = g.primary ∧
              ∀ o ∈ i.operands, ∀ n, o.pairIndex? = some n → n % 2 = 0) ↔
            ∀ k ∈ r.operands, k.oddIndex? g.format word = none) ∧
          ∀ n, result = .error (.oddPair addr r.mnemonic n g.format.length) ↔
            r.operands.findSome? (·.oddIndex? g.format word) = some n) := by
  refine ⟨fun g hg r hr filler addr => ?_, fun isa b0 b1 b2 b3 addr => ?_⟩
  · have h := selects_stamp hg hr filler
    obtain ⟨hok, hodd⟩ := decode_of_supported .v16 addr
      (encodingOf_bytesOf h.length) h (by cases r.since <;> rfl)
    refine ⟨⟨fun ⟨i, hi, hrow, hprim⟩ => ?_, fun hk => ?_⟩, hodd⟩
    · by_contra hk
      rw [← List.findSome?_eq_none_iff] at hk
      obtain ⟨n, hn⟩ := Option.ne_none_iff_exists'.1 hk
      rw [(hodd n).2 hn] at hi
      cases hi
    · obtain ⟨i, hi, hrow, hprim, -⟩ := hok.2 hk
      exact ⟨i, hi, hrow, hprim⟩
  · have hb := encodingOf_bytes b0 b1 b2 b3
    refine ⟨decode_unknown_iff isa addr hb, decode_requiresV16_iff isa addr hb, fun g r h =>
      ⟨fun g' r' h' => ?_, decode_of_supported isa addr hb h⟩⟩
    exact Selects.unique (ofWord_proper _) (selects_ofWord.2 h) (selects_ofWord.2 h')

/-- `mul e0, d0, d0` and its row on a word of ones, where the pair is odd. -/
theorem decode_exact_mul :
    let g : Group := ⟨0x73, .rr2, Opcode.multiplyRows⟩
    ∃ r, Selects 0x006A0073 g r ∧ (∀ g' r', Selects 0x006A0073 g' r' → g' = g ∧ r' = r) ∧
      (∃ i, decode .v13 [0x73, 0x00, 0x6A, 0x00] 0 = .ok i ∧ i.row = r) ∧
      decode .v16 (g.format.bytesOf (g.stamp r (.allOnes 32))) 0 =
        .error (.oddPair 0 "mul" 15 4) := by
  intro g
  have hg : g ∈ Opcode.table := by decide +kernel
  let r : Row := .arith 0x6A "mul" [.ec, .da, .db] (.multiply .signed true false)
  have hr : r ∈ g.rows := by decide
  have h : Selects (0x00#8 ++ 0x6A#8 ++ 0x00#8 ++ 0x73#8) g r :=
    ⟨hg, hr, by decide, by decide, by rintro field ⟨⟩; decide⟩
  obtain ⟨hunique, hresult⟩ := (decode_exact.2 .v13 0x73 0x00 0x6A 0x00 0).2.2 g r h
  obtain ⟨i, hi, hrow, -⟩ := (hresult rfl).1.2 (by decide)
  have hodd := (decode_exact.1 g hg r hr (.allOnes 32) 0).2 15
  exact ⟨r, h, hunique, ⟨i, hi, hrow⟩, hodd.2 (by decide)⟩

end Decoding

end Instruction

end Tricore
