import Mathlib
import Tricore.Listing
import Tricore.Proofs.Coverage
import Tricore.Proofs.EntryPoints

/-!
# Sweeps of a segment

A sweep is a loop without a bound of its own (`Sweeps`), and `sweep` runs it to its end where a
segment leaves room for one more instruction above it (`Sweeps.sweep`). Listings, tokens and effects
come from three sweeps that step over what does not decode in different ways: a listing stays within
the bytes that are left, the other two do not. The difference can only show at the end of the
segment, where all of them stop. So they visit the same places and find the same instructions there
(`sweeps_agree`).
-/

namespace Tricore

/-! ## The loop -/

/-- A sweep from `pc` comes to its end: it gives these items and reaches this address. -/
inductive Sweeps {α : Type} (img : Image) (item : List Byte → Address → Item α) (stop : Address) :
    Address → List (Address × α) × Address → Prop where
  | done {pc : Address} (h : ¬ pc < stop) : Sweeps img item stop pc ([], pc)
  | unmapped {pc : Address} (h : img.code pc = []) : Sweeps img item stop pc ([], pc)
  | next {pc reached : Address} {items : List (Address × α)} (hlt : pc < stop)
      (hcode : img.code pc ≠ [])
      (hrest : Sweeps img item stop (pc + .ofNat 32 (item (img.code pc) pc).length)
        (items, reached)) :
      Sweeps img item stop pc ((pc, (item (img.code pc) pc).content) :: items, reached)

namespace Sweeps

variable {α β : Type} {img : Image} {f : List Byte → Address → Item α}
  {g : List Byte → Address → Item β} {stop pc : Address}

theorem nil_of_unmapped {r : List (Address × α) × Address} (h : Sweeps img f stop pc r)
    (hcode : img.code pc = []) : r.1 = [] := by
  cases h with
  | done | unmapped => rfl
  | next _ hmapped => exact absurd hcode hmapped

/-- What a sweep has at an address is what the bytes there give. -/
theorem content_of_mem {r : List (Address × α) × Address} (h : Sweeps img f stop pc r) :
    ∀ x ∈ r.1, x.2 = (f (img.code x.1) x.1).content := by
  induction h with
  | done | unmapped => simp
  | next _ _ _ ih => simpa using ih

/-- Two sweeps that move on alike, or else both off the image, visit the same places. -/
theorem places_eq {r : List (Address × α) × Address} {q : List (Address × β) × Address}
    (hstep : ∀ pc, img.code pc ≠ [] →
      (f (img.code pc) pc).length = (g (img.code pc) pc).length ∨
        img.code (pc + .ofNat 32 (f (img.code pc) pc).length) = [] ∧
          img.code (pc + .ofNat 32 (g (img.code pc) pc).length) = [])
    (hf : Sweeps img f stop pc r) (hg : Sweeps img g stop pc q) :
    r.1.map Prod.fst = q.1.map Prod.fst := by
  induction hf generalizing q with
  | done h =>
    cases hg with
    | done | unmapped => rfl
    | next hlt => exact absurd hlt h
  | unmapped h => rw [hg.nil_of_unmapped h]; rfl
  | next hlt hcode hrest ih =>
    cases hg with
    | done h => exact absurd hlt h
    | unmapped h => exact absurd h hcode
    | next _ _ hrest' =>
      rw [List.map_cons, List.map_cons]
      congr 1
      rcases hstep _ hcode with hlen | ⟨hoff, hoff'⟩
      · exact ih (hlen ▸ hrest')
      · have hnil := hrest.nil_of_unmapped hoff
        have hnil' := hrest'.nil_of_unmapped hoff'
        subst hnil hnil'
        rfl

end Sweeps

/-! ## One segment -/

namespace Segment

variable {s : Segment} {pc : Address}

/-- A segment that ends early enough for one more instruction to fit above it. -/
def Roomy (s : Segment) : Prop := s.base.toNat + s.bytes.size ≤ 2 ^ 32 - 4

theorem toNat_stop (h : s.Roomy) : s.stop.toNat = s.base.toNat + s.bytes.size := by
  unfold Roomy at h
  rw [stop, BitVec.toNat_add, BitVec.toNat_ofNat]
  omega

theorem contains_iff (h : s.Roomy) : s.contains pc = true ↔
    s.base.toNat ≤ pc.toNat ∧ pc.toNat < s.base.toNat + s.bytes.size := by
  rw [contains, Bool.and_eq_true, decide_eq_true_eq, decide_eq_true_eq, BitVec.le_def,
    BitVec.lt_def, toNat_stop h]

/-- The bytes that are left at an address, four at most. -/
theorem length_code (h : s.Roomy) : (Image.code [s] pc).length =
    if s.base.toNat ≤ pc.toNat then min 4 (s.base.toNat + s.bytes.size - pc.toNat) else 0 := by
  unfold Image.code Image.window Image.segment?
  rw [List.find?_singleton]
  cases hc : s.contains pc with
  | true =>
    have hin := (contains_iff h).1 hc
    have hoff : s.offset pc = pc.toNat - s.base.toNat := by
      rw [offset, BitVec.toNat_sub_of_le (BitVec.le_def.2 hin.1)]
    simp only [if_true, if_pos hin.1, Array.length_toList, Array.size_extract, hoff]
    omega
  | false =>
    have hout := mt (contains_iff h).2 (Bool.eq_false_iff.1 hc)
    simp only [Bool.false_eq_true, if_false, List.length_nil]
    split <;> omega

theorem code_eq_nil_iff (h : s.Roomy) : Image.code [s] pc = [] ↔
    ¬ (s.base.toNat ≤ pc.toNat ∧ pc.toNat < s.base.toNat + s.bytes.size) := by
  rw [← List.length_eq_zero_iff, length_code h]
  split <;> omega

theorem code_ne_nil_iff (h : s.Roomy) : Image.code [s] pc ≠ [] ↔
    s.base.toNat ≤ pc.toNat ∧ pc.toNat < s.base.toNat + s.bytes.size :=
  (not_congr (code_eq_nil_iff h)).trans not_not

/-- Nothing that moves on by four bytes at most wraps around. -/
theorem toNat_advance (h : s.Roomy) (hcode : Image.code [s] pc ≠ []) {n : Nat} (hn : n ≤ 4) :
    (pc + .ofNat 32 n).toNat = pc.toNat + n := by
  have hin := (code_ne_nil_iff h).1 hcode
  unfold Roomy at h
  rw [BitVec.toNat_add, BitVec.toNat_ofNat]
  omega

end Segment

/-- A sweep that moves on by one to four bytes at a time comes to its end before it has more items
than the segment has bytes. -/
theorem Sweeps.sweep {α : Type} {s : Segment} {f : List Byte → Address → Item α}
    (hroom : s.Roomy) (hpos : ∀ bytes pc, 0 < (f bytes pc).length)
    (hfour : ∀ bytes pc, (f bytes pc).length ≤ 4) (start stop : Address) :
    Sweeps [s] f stop start (sweep [s] f start stop) := by
  have hfuel : ∀ (fuel : Nat) (pc : Address),
      (Image.code [s] pc ≠ [] → s.base.toNat + s.bytes.size - pc.toNat ≤ fuel) →
      Sweeps [s] f stop pc (sweepFrom [s] f stop fuel pc) := by
    intro fuel
    induction fuel with
    | zero =>
      intro pc hbound
      refine .unmapped (by_contra fun hcode => ?_)
      have hin := (Segment.code_ne_nil_iff hroom).1 hcode
      have := hbound hcode
      omega
    | succ fuel ih =>
      intro pc hbound
      rw [sweepFrom]
      split
      · next hlt =>
        split
        · next hcode => exact .unmapped hcode
        · next hcode =>
          refine .next hlt hcode (ih _ fun _ => ?_)
          rw [Segment.toNat_advance hroom hcode (hfour _ _)]
          have := hbound hcode
          have := hpos (Image.code [s] pc) pc
          omega
      · next hlt => exact .done hlt
  refine hfuel _ _ fun hcode => ?_
  have hin := (Segment.code_ne_nil_iff hroom).1 hcode
  simp only [Image.size, List.foldl_cons, List.foldl_nil]
  omega

/-! ## Three ways to move on -/

/-- By how many bytes to move on from what a decoder sees: by an instruction, or by what its error
says to step over. -/
def advance (isa : Isa) (bytes : List Byte) (pc : Address) : Nat :=
  match Instruction.decode isa bytes pc with
  | .ok i => i.length
  | .error e => max e.skip 1

theorem Instruction.skip_of_decode_le {isa : Isa} {bytes : List Byte} {pc : Address}
    {e : DecodeError} (h : decode isa bytes pc = .error e) : e.skip ≤ 4 := by
  match bytes, h with
  | [], h | [_], h => cases h; exact le_rfl
  | b0 :: b1 :: rest, h =>
    rw [skip_of_decode h, Byte.encodingLength]
    split <;> decide

theorem advance_bounds (isa : Isa) (bytes : List Byte) (pc : Address) :
    0 < advance isa bytes pc ∧ advance isa bytes pc ≤ 4 := by
  unfold advance
  split
  · next i hi =>
    obtain ⟨hpos, hfour, -⟩ := Instruction.length_of_decode_le hi
    exact ⟨hpos, hfour⟩
  · next e he =>
    have := Instruction.skip_of_decode_le he
    omega

/-- A reader accepts what decodes, with its length, and refuses the rest for the decoder's reason. -/
def Decodes {α : Type} (isa : Isa) (read : List Byte → Address → Except DecodeError (Nat × α)) :
    Prop :=
  ∀ bytes pc, (read bytes pc).map Prod.fst =
    (Instruction.decode isa bytes pc).map Instruction.length

theorem decodes_render (isa : Isa) : Decodes isa (render isa) := by
  intro bytes pc
  unfold render
  cases Instruction.decode isa bytes pc <;> rfl

/-- Lifting refuses nothing that decodes. -/
theorem decodes_liftBytes (isa : Isa) (t : Trace) :
    Decodes isa fun bytes pc => liftBytes isa bytes pc t := by
  intro bytes pc
  show (liftBytes isa bytes pc t).map Prod.fst = _
  cases h : Instruction.decode isa bytes pc with
  | error e => rw [liftBytes, h]; rfl
  | ok i =>
    obtain ⟨stmts, next, hlift, -⟩ := Instruction.lift_of_decode h t
    simp only [liftBytes, h, bind, Except.bind, hlift]
    rfl

/-- A line covers at most the bytes there are. -/
theorem length_lineItem (isa : Isa) (showBytes : Bool) (bytes : List Byte) (pc : Address) :
    (lineItem isa showBytes bytes pc).length = max (min (advance isa bytes pc) bytes.length) 1 := by
  unfold lineItem advance render
  cases h : Instruction.decode isa bytes pc with
  | ok i =>
    obtain ⟨hpos, -, hle⟩ := Instruction.length_of_decode_le h
    simp only [bind, Except.bind, pure, Except.pure]
    omega
  | error e =>
    simp only [bind, Except.bind]
    omega

theorem Sweeps.lineItem {s : Segment} (hroom : s.Roomy) (isa : Isa) (showBytes : Bool)
    (start stop : Address) :
    Sweeps [s] (lineItem isa showBytes) stop start
      (Tricore.sweep [s] (lineItem isa showBytes) start stop) := by
  refine .sweep hroom (fun bytes pc => ?_) (fun bytes pc => ?_) start stop
  all_goals
    rw [length_lineItem]
    have := advance_bounds isa bytes pc
    omega

/-- The addresses and lengths of the instructions at these places. -/
def instructionsAt (isa : Isa) (img : Image) (places : List Address) : List (Address × Nat) :=
  places.filterMap fun pc =>
    (Instruction.decode isa (img.code pc) pc).toOption.map fun i => (pc, i.length)

/-- The addresses and lengths of instructions. -/
def extents {α : Type} (found : List (Address × Nat × α)) : List (Address × Nat) :=
  found.map fun x => (x.1, x.2.1)

namespace Decodes

variable {α : Type} {isa : Isa} {read : List Byte → Address → Except DecodeError (Nat × α)}

theorem length_decoded (h : Decodes isa read) (bytes : List Byte) (pc : Address) :
    (decoded read bytes pc).length = advance isa bytes pc := by
  have hr := h bytes pc
  unfold decoded advance
  cases hread : read bytes pc <;> cases hdec : Instruction.decode isa bytes pc <;>
    simp_all [Except.map]

theorem content_decoded (h : Decodes isa read) (bytes : List Byte) (pc : Address) :
    (decoded read bytes pc).content.map Prod.fst =
      (Instruction.decode isa bytes pc).toOption.map Instruction.length := by
  have hr := h bytes pc
  unfold decoded
  cases hread : read bytes pc <;> cases hdec : Instruction.decode isa bytes pc <;>
    simp_all [Except.map, Except.toOption]

theorem sweeps {s : Segment} (hroom : s.Roomy) (h : Decodes isa read) (start stop : Address) :
    Sweeps [s] (decoded read) stop start (sweep [s] (decoded read) start stop) := by
  refine .sweep hroom (fun bytes pc => ?_) (fun bytes pc => ?_) start stop
  all_goals
    rw [h.length_decoded]
    have := advance_bounds isa bytes pc
    omega

/-- The instructions that a reader finds are those at the places it visits. -/
theorem instructions_eq {s : Segment} (hroom : s.Roomy) (h : Decodes isa read)
    (start stop : Address) :
    extents (instructions [s] read start stop) =
      instructionsAt isa [s] ((sweep [s] (decoded read) start stop).1.map Prod.fst) := by
  unfold extents instructions instructionsAt
  rw [List.map_filterMap, List.filterMap_map]
  refine List.filterMap_congr fun x hx => ?_
  have hcontent := (h.sweeps hroom start stop).content_of_mem x hx
  have hlength := h.content_decoded (Image.code [s] x.1) x.1
  rw [← hcontent] at hlength
  have := congrArg (Option.map fun n => (x.1, n)) hlength
  simpa [Option.map_map, Function.comp_def] using this

/-- What a listing steps over differently takes both of them off the segment. -/
theorem places_listing {s : Segment} (hroom : s.Roomy) (h : Decodes isa read) (showBytes : Bool)
    (start stop : Address) :
    (sweep [s] (lineItem isa showBytes) start stop).1.map Prod.fst =
      (sweep [s] (decoded read) start stop).1.map Prod.fst := by
  refine Sweeps.places_eq (fun pc hcode => ?_) (.lineItem hroom isa showBytes start stop)
    (h.sweeps hroom start stop)
  rw [length_lineItem, h.length_decoded]
  have hin := (Segment.code_ne_nil_iff hroom).1 hcode
  have hleft : (Image.code [s] pc).length = min 4 (s.base.toNat + s.bytes.size - pc.toNat) := by
    rw [Segment.length_code hroom, if_pos hin.1]
  have hbounds := advance_bounds isa (Image.code [s] pc) pc
  rcases Nat.lt_or_ge (Image.code [s] pc).length (advance isa (Image.code [s] pc) pc) with
    hlt | hge
  · right
    constructor
    all_goals
      rw [Segment.code_eq_nil_iff hroom, Segment.toNat_advance hroom hcode (by omega)]
      omega
  · left
    omega

end Decodes

/-- The sweeps for a listing, for tokens and for effects come to their ends, and the instructions
that they find are the same, at the same addresses and of the same lengths. -/
theorem sweeps_agree (isa : Isa) (s : Segment) (hroom : s.base.toNat + s.bytes.size ≤ 2 ^ 32 - 4)
    (showBytes : Bool) (start stop : Address) :
    let effects := fun bytes pc => liftBytes isa bytes pc .empty
    let lines := sweep [s] (lineItem isa showBytes) start stop
    (Sweeps [s] (lineItem isa showBytes) stop start lines ∧
      Sweeps [s] (decoded (render isa)) stop start (sweep [s] (decoded (render isa)) start stop) ∧
      Sweeps [s] (decoded effects) stop start (sweep [s] (decoded effects) start stop)) ∧
    instructionsAt isa [s] (lines.1.map Prod.fst) =
      extents (instructions [s] (render isa) start stop) ∧
    extents (instructions [s] (render isa) start stop) =
      extents (instructions [s] effects start stop) := by
  intro effects lines
  have hrender := decodes_render isa
  have hlift : Decodes isa effects := decodes_liftBytes isa .empty
  refine ⟨⟨.lineItem hroom isa showBytes start stop, hrender.sweeps hroom start stop,
    hlift.sweeps hroom start stop⟩, ?_, ?_⟩
  · rw [hrender.instructions_eq hroom, ← hrender.places_listing hroom showBytes]
  · rw [hrender.instructions_eq hroom, hlift.instructions_eq hroom,
      ← hrender.places_listing hroom showBytes, ← hlift.places_listing hroom showBytes]

/-- `add d2, d1` before three bytes of a longer encoding. -/
def cutShort : Segment := { base := 0x100, bytes := #[0x42, 0x12, 0x0b, 0x00, 0x01] }

/-- The listing steps over the three bytes, the others over a fourth that is not there. -/
theorem sweeps_agree_cutShort :
    (sweep [cutShort] (lineItem .v16 false) 0x100 0x200).2 = 0x105 ∧
    (sweep [cutShort] (decoded (render .v16)) 0x100 0x200).2 = 0x106 ∧
    instructionsAt .v16 [cutShort]
      ((sweep [cutShort] (lineItem .v16 false) 0x100 0x200).1.map Prod.fst) = [(0x100, 2)] ∧
    extents (instructions [cutShort] (fun bytes pc => liftBytes .v16 bytes pc .empty) 0x100 0x200) =
      [(0x100, 2)] := by
  obtain ⟨-, hlines, htokens⟩ := sweeps_agree .v16 cutShort (by decide) false 0x100 0x200
  have hplaces : instructionsAt .v16 [cutShort]
      ((sweep [cutShort] (lineItem .v16 false) 0x100 0x200).1.map Prod.fst) = [(0x100, 2)] := by
    decide +kernel
  refine ⟨by decide +kernel, by decide +kernel, hplaces, ?_⟩
  rw [← htokens, ← hlines, hplaces]

end Tricore
