import Mathlib
import Tricore.Image

/-!
# What an image maps

An image whose segments lie apart maps the bytes of each of them: an address of a segment is found,
and what is read there are the segment's own bytes (`Image.Shows`). The address after the last byte
is a word, however, and it is zero for a segment that takes the last byte of the address space: such
a segment ends below all its bytes and maps none of them (`images_map_segments`).
-/

namespace Tricore

namespace Segment

variable {s : Segment} {addr : Address}

/-- The address is that of one of the segment's bytes. -/
def Spans (s : Segment) (addr : Address) : Prop :=
  s.base.toNat ≤ addr.toNat ∧ addr.toNat < s.base.toNat + s.bytes.size

instance (s : Segment) (addr : Address) : Decidable (s.Spans addr) :=
  inferInstanceAs (Decidable (_ ∧ _))

/-- The segment takes the last byte of the address space. -/
def Topmost (s : Segment) : Prop := s.base.toNat + s.bytes.size = 2 ^ 32

instance (s : Segment) : Decidable s.Topmost := inferInstanceAs (Decidable (_ = _))

/-- The segments have no address in common. -/
def Apart (s t : Segment) : Prop := ∀ addr, ¬ (s.Spans addr ∧ t.Spans addr)

theorem toNat_stop_eq (hfit : s.base.toNat + s.bytes.size ≤ 2 ^ 32) :
    s.stop.toNat = if s.Topmost then 0 else s.base.toNat + s.bytes.size := by
  rw [stop, BitVec.toNat_add, BitVec.toNat_ofNat, Nat.add_mod_mod]
  split
  · next htop => rw [show s.base.toNat + s.bytes.size = 2 ^ 32 from htop, Nat.mod_self]
  · next htop => exact Nat.mod_eq_of_lt (hfit.lt_of_ne htop)

theorem contains_iff_spans (hfit : s.base.toNat + s.bytes.size ≤ 2 ^ 32) :
    s.contains addr = true ↔ s.Spans addr ∧ ¬ s.Topmost := by
  rw [contains, Bool.and_eq_true, decide_eq_true_eq, decide_eq_true_eq, BitVec.le_def,
    BitVec.lt_def, toNat_stop_eq hfit]
  unfold Spans
  split <;> simp_all

theorem Spans.offset (h : s.Spans addr) : s.offset addr = addr.toNat - s.base.toNat :=
  BitVec.toNat_sub_of_le h.1

end Segment

namespace Image

variable {img : Image} {addr : Address} {s : Segment}

/-- At this address the image shows the bytes of the segment. -/
structure Shows (img : Image) (addr : Address) (s : Segment) : Prop where
  mapped : img.isMapped addr = true
  byte : ∃ b, s.bytes[addr.toNat - s.base.toNat]? = some b ∧ img.byte? addr = some b
  length : ∀ max,
    (img.window addr max).length = min max (s.base.toNat + s.bytes.size - addr.toNat)
  bytes : ∀ max, ∀ k < (img.window addr max).length,
    (img.window addr max)[k]? = s.bytes[addr.toNat - s.base.toNat + k]?

/-- At this address the image shows nothing. -/
structure Lacks (img : Image) (addr : Address) : Prop where
  unmapped : img.isMapped addr = false
  byte : img.byte? addr = none
  window : ∀ max, img.window addr max = []

theorem isMapped_eq (img : Image) (addr : Address) :
    img.isMapped addr = (img.segment? addr).isSome := by
  rw [isMapped, segment?, List.isSome_find?]

theorem lacks_of_segment? (h : img.segment? addr = none) : img.Lacks addr where
  unmapped := by rw [isMapped_eq, h]; rfl
  byte := by rw [byte?, h]; rfl
  window max := by rw [Image.window, h]

theorem shows_of_segment? (h : img.segment? addr = some s) (hspans : s.Spans addr) :
    img.Shows addr s := by
  obtain ⟨hlow, hhigh⟩ := hspans
  have hlt : addr.toNat - s.base.toNat < s.bytes.size := by omega
  have hwindow : ∀ max, img.window addr max =
      (s.bytes.extract (addr.toNat - s.base.toNat) (addr.toNat - s.base.toNat + max)).toList := by
    intro max
    simp only [Image.window, h, Segment.Spans.offset ⟨hlow, hhigh⟩]
  have hlength : ∀ max,
      (img.window addr max).length = min max (s.base.toNat + s.bytes.size - addr.toNat) := by
    intro max
    rw [hwindow, Array.length_toList, Array.size_extract]
    omega
  refine ⟨by rw [isMapped_eq, h]; rfl, ?_, hlength, fun max k hk => ?_⟩
  · refine ⟨s.bytes[addr.toNat - s.base.toNat], Array.getElem?_eq_getElem hlt, ?_⟩
    rw [byte?, h]
    exact (congrArg (s.bytes[·]?) (Segment.Spans.offset ⟨hlow, hhigh⟩)).trans
      (Array.getElem?_eq_getElem hlt)
  · rw [hlength] at hk
    rw [hwindow, Array.getElem?_toList, Array.getElem?_extract, if_pos (by omega)]

/-- Among segments that lie apart, the one with the address is the one that is found. -/
theorem segment?_of_spans (hfit : ∀ s ∈ img, s.base.toNat + s.bytes.size ≤ 2 ^ 32)
    (hapart : img.Pairwise Segment.Apart) (hs : s ∈ img) (hspans : s.Spans addr)
    (htop : ¬ s.Topmost) : img.segment? addr = some s := by
  induction img with
  | nil => cases hs
  | cons t img ih =>
    obtain ⟨hfirst, hrest⟩ := List.pairwise_cons.1 hapart
    rcases List.mem_cons.1 hs with rfl | hs
    · exact List.find?_cons_of_pos
        ((Segment.contains_iff_spans (hfit s (by simp))).2 ⟨hspans, htop⟩)
    · have hother : ¬ t.contains addr = true := by
        rw [Segment.contains_iff_spans (hfit t (by simp))]
        exact fun ht => hfirst s hs addr ⟨ht.1, hspans⟩
      rw [segment?, List.find?_cons_of_neg (by exact hother)]
      exact ih (fun s hs => hfit s (by simp [hs])) hrest hs

theorem segment?_eq_none (hfit : ∀ s ∈ img, s.base.toNat + s.bytes.size ≤ 2 ^ 32)
    (hnone : ∀ s ∈ img, s.Spans addr → s.Topmost) : img.segment? addr = none := by
  refine List.find?_eq_none.2 fun s hs => ?_
  rw [Segment.contains_iff_spans (hfit s hs)]
  exact fun h => h.2 (hnone s hs h.1)

end Image

/-- Of segments that lie apart and fit the address space, each shows its own bytes at its own
addresses, but for one that takes the last byte of the address space; elsewhere there is nothing. -/
theorem images_map_segments (img : Image)
    (hfit : ∀ s ∈ img, s.base.toNat + s.bytes.size ≤ 2 ^ 32)
    (hapart : img.Pairwise Segment.Apart) (addr : Address) :
    (img.isMapped addr = true ↔ ∃ s ∈ img, s.Spans addr ∧ ¬ s.Topmost) ∧
    (∀ s ∈ img, s.Spans addr → ¬ s.Topmost → img.Shows addr s) ∧
    ((∀ s ∈ img, s.Spans addr → s.Topmost) → img.Lacks addr) := by
  have hshows : ∀ s ∈ img, s.Spans addr → ¬ s.Topmost → img.Shows addr s := by
    intro s hs hspans htop
    exact Image.shows_of_segment? (Image.segment?_of_spans hfit hapart hs hspans htop) hspans
  have hlacks : (∀ s ∈ img, s.Spans addr → s.Topmost) → img.Lacks addr := by
    intro hnone
    exact Image.lacks_of_segment? (Image.segment?_eq_none hfit hnone)
  refine ⟨⟨fun hmapped => ?_, ?_⟩, hshows, hlacks⟩
  · by_contra hnone
    have htop : ∀ s ∈ img, s.Spans addr → s.Topmost := by
      intro s hs hspans
      by_contra htop
      exact hnone ⟨s, hs, hspans, htop⟩
    rw [(hlacks htop).unmapped] at hmapped
    cases hmapped
  · rintro ⟨s, hs, hspans, htop⟩
    exact (hshows s hs hspans htop).mapped

/-- Four bytes at the end of the address space, and two bytes that end below them. -/
def lastBytes : Image :=
  [{ base := 0xFFFFFFFC, bytes := #[0x00, 0x11, 0x22, 0x33] },
    { base := 0xFFFFFFF0, bytes := #[0x44, 0x55] }]

theorem lastBytes_apart : lastBytes.Pairwise Segment.Apart := by
  refine .cons (List.forall_mem_singleton.2 fun addr h => ?_) (List.pairwise_singleton _ _)
  obtain ⟨⟨hlow, -⟩, -, hhigh⟩ := h
  exact absurd (hlow.trans_lt hhigh) (by decide)

theorem images_map_segments_below_top :
    lastBytes.Shows 0xFFFFFFF1 { base := 0xFFFFFFF0, bytes := #[0x44, 0x55] } ∧
      lastBytes.Lacks 0xFFFFFFF2 := by
  have hfit : ∀ s ∈ lastBytes, s.base.toNat + s.bytes.size ≤ 2 ^ 32 := by decide
  obtain ⟨-, hshows, -⟩ := images_map_segments lastBytes hfit lastBytes_apart 0xFFFFFFF1
  obtain ⟨-, -, hlacks⟩ := images_map_segments lastBytes hfit lastBytes_apart 0xFFFFFFF2
  exact ⟨hshows _ (by decide) (by decide) (by decide), hlacks (by decide)⟩

/-- The four bytes at the end are there, and are not found. -/
theorem topmost_segment_unmapped :
    (∃ s ∈ lastBytes, s.base.toNat + s.bytes.size ≤ 2 ^ 32 ∧ s.Spans 0xFFFFFFFC) ∧
      lastBytes.isMapped 0xFFFFFFFC = false ∧ lastBytes.byte? 0xFFFFFFFC = none ∧
      lastBytes.window 0xFFFFFFFC 4 = [] := by
  decide

end Tricore
