import Mathlib
import Tricore.CodeGraph.Report
import Tricore.Proofs.Coverage

/-!
# Blocks

The blocks of a report divide the decoded instructions among them, whether or not the search was
cut short (`blocks_partition`).

A search decodes an address only because it is an entry or the target of a link, and a report lets a
block start at each of these. A link leads from an instruction to the one after it as well, so a
block ends with its first instruction (`blocks_hold_one_instruction`), and straight-line code is
never joined (`straight_line_is_cut`).
-/

namespace Tricore

/-- The addresses of a block: its start, and what comes after one of them and before its end. -/
inductive Block.Holds (widths : Std.TreeMap Address Nat) (b : Block) : Address → Prop
  | start : Holds widths b b.start
  | next {a w} (h : Holds widths b a) (hw : widths[a]? = some w)
    (hstop : a + .ofNat 32 w ≠ b.stop) : Holds widths b (a + .ofNat 32 w)

namespace CodeGraph

variable {g : CodeGraph} {starts : Std.TreeSet Address} {a pc start next : Address}
  {owners : Owners}

/-! ## Cutting one block -/

/-- The loop that cuts one block, with no bound on its turns. -/
inductive Walks (g : CodeGraph) (starts : Std.TreeSet Address) (start : Address) :
    Address → Owners → Owners × Option Address → Prop
  | undecoded {pc : Address} {owners : Owners} (h : g.widths[pc]? = none) :
    Walks g starts start pc owners (owners, none)
  | stop {pc : Address} {owners : Owners} {w : Nat} (h : g.widths[pc]? = some w)
    (hends : g.endsBlock starts pc (pc + .ofNat 32 w) = true) :
    Walks g starts start pc owners (owners.insert pc start, some (pc + .ofNat 32 w))
  | go {pc : Address} {owners : Owners} {w : Nat} {r : Owners × Option Address}
    (h : g.widths[pc]? = some w)
    (hends : g.endsBlock starts pc (pc + .ofNat 32 w) = false)
    (hrest : Walks g starts start (pc + .ofNat 32 w) (owners.insert pc start) r) :
    Walks g starts start pc owners r

theorem mem_widths_iff : a ∈ g.widths ↔ ∃ w, g.widths[a]? = some w := by
  rw [Std.TreeMap.mem_iff_isSome_getElem?, Option.isSome_iff_exists]

/-- The block of the instruction at an address alone. -/
def blockAt (g : CodeGraph) (a : Address) : Option Block :=
  g.widths[a]?.map fun w => ⟨a, a + .ofNat 32 w⟩

theorem blockAt_eq_some {b : Block} : g.blockAt a = some b ↔
    a = b.start ∧ ∃ w, g.widths[b.start]? = some w ∧ b.stop = b.start + .ofNat 32 w := by
  unfold blockAt
  rw [Option.map_eq_some_iff]
  constructor
  · rintro ⟨w, hw, rfl⟩
    exact ⟨rfl, w, hw, rfl⟩
  · rintro ⟨rfl, w, hw, hstop⟩
    refine ⟨w, hw, ?_⟩
    cases b
    simp_all

theorem mem_widths_of_blockAt {b : Block} (h : g.blockAt a = some b) : a ∈ g.widths := by
  obtain ⟨rfl, w, hw, -⟩ := blockAt_eq_some.1 h
  exact mem_widths_iff.2 ⟨w, hw⟩

theorem not_mem_widths_of_blockAt (h : g.blockAt a = none) : a ∉ g.widths := by
  rw [mem_widths_iff]
  rintro ⟨w, hw⟩
  rw [blockAt, hw] at h
  cases h

section Cut

variable (hstarts : ∀ a ∈ g.widths, a ∈ starts)
include hstarts

theorem endsBlock_of_starts : g.endsBlock starts pc next = true := by
  unfold endsBlock
  by_cases hnext : next ∈ g.widths
  · have := Std.TreeSet.contains_iff_mem.2 (hstarts next hnext)
    simp [this]
  · have := mt Std.TreeMap.contains_iff_mem.1 hnext
    simp [this]

theorem walk_eq : g.walk starts start g.widths.size start owners =
    match g.widths[start]? with
    | none => (owners, none)
    | some w => (owners.insert start start, some (start + .ofNat 32 w)) := by
  cases hw : g.widths[start]? with
  | none => cases g.widths.size <;> simp [walk, hw]
  | some w =>
    have hmem := mem_widths_iff.2 ⟨w, hw⟩
    have hpos : 0 < g.widths.size := by
      rw [← Std.TreeMap.length_keys]
      exact List.length_pos_of_mem (Std.TreeMap.mem_keys.2 hmem)
    obtain ⟨n, hn⟩ := Nat.exists_eq_add_one.2 hpos
    rw [hn]
    simp [walk, hw, endsBlock_of_starts hstarts]

theorem walks_walk :
    Walks g starts start start owners (g.walk starts start g.widths.size start owners) := by
  rw [walk_eq hstarts]
  cases hw : g.widths[start]? with
  | none => exact .undecoded hw
  | some w => exact .stop hw (endsBlock_of_starts hstarts)

variable (hvisited : ∀ a ∈ g.widths, a ∈ g.visited)
include hvisited

theorem blocksFrom_cons {rest : List Address} (hnew : start ∉ owners) :
    g.blocksFrom starts (start :: rest) owners =
      match g.blockAt start with
      | none => g.blocksFrom starts rest owners
      | some b => (b :: (g.blocksFrom starts rest (owners.insert start start)).1,
          (g.blocksFrom starts rest (owners.insert start start)).2) := by
  rw [blocksFrom, walk_eq hstarts, blockAt]
  cases hw : g.widths[start]? with
  | none =>
    dsimp only [Option.map_none]
    split <;> rfl
  | some w =>
    have hmem := mem_widths_iff.2 ⟨w, hw⟩
    have hstart := Std.TreeSet.contains_iff_mem.2 (hvisited start hmem)
    have hold := mt Std.TreeMap.contains_iff_mem.1 hnew
    simp [hstart, hold]

/-- Each decoded start makes a block of its own and owns itself. -/
theorem blocksFrom_eq {xs : List Address} (hnodup : xs.Nodup) (hnew : ∀ a ∈ xs, a ∉ owners) :
    (g.blocksFrom starts xs owners).1 = xs.filterMap g.blockAt ∧
      ∀ a, (g.blocksFrom starts xs owners).2[a]? =
        if a ∈ xs ∧ a ∈ g.widths then some a else owners[a]? := by
  induction xs generalizing owners with
  | nil => simp [blocksFrom]
  | cons start rest ih =>
    obtain ⟨hfresh, hnodup⟩ := List.nodup_cons.1 hnodup
    have hrest : ∀ a ∈ rest, a ∉ owners := fun a ha => hnew a (List.mem_cons_of_mem _ ha)
    rw [blocksFrom_cons hstarts hvisited (hnew start List.mem_cons_self), List.filterMap_cons]
    cases hb : g.blockAt start with
    | none =>
      have hnot := not_mem_widths_of_blockAt hb
      obtain ⟨hblocks, howners⟩ := ih hnodup hrest
      refine ⟨hblocks, fun a => (howners a).trans ?_⟩
      by_cases ha : a = start
      · subst ha
        simp [hnot]
      · simp [ha]
    | some b =>
      have hmem := mem_widths_of_blockAt hb
      -- The block owns its start alone, so the starts after it have no owner yet.
      have hnext : ∀ a ∈ rest, a ∉ owners.insert start start := by
        intro a ha hold
        rcases Std.TreeMap.mem_insert.1 hold with heq | hold
        · exact hfresh (Std.compare_eq_iff_eq.1 heq ▸ ha)
        · exact hrest a ha hold
      obtain ⟨hblocks, howners⟩ := ih hnodup hnext
      refine ⟨by rw [hblocks], fun a => (howners a).trans ?_⟩
      by_cases ha : start = a
      · subst ha
        simp [hfresh, hmem]
      · simp [Std.TreeMap.getElem?_insert, ha, Ne.symm ha]

end Cut

/-! ## The blocks of a report -/

/-- What a report needs of a graph: whatever decodes was visited and may start a block, and links
come from what decodes. -/
structure Grounded (entries : List Address) (g : CodeGraph) : Prop where
  visited : ∀ a ∈ g.widths, a ∈ g.visited
  start : ∀ a ∈ g.widths, a ∈ g.starts entries
  source : ∀ l ∈ g.links, l.source ∈ g.widths

variable {entries : List Address}

theorem mem_starts : a ∈ g.starts entries ↔ a ∈ entries ∨ ∃ l ∈ g.links, l.target = a := by
  simp [starts, Std.TreeSet.mem_ofList]

/-- A search decodes nothing but entries and targets of links. -/
theorem grounded_explore (isa : Isa) (img : Image) (entries : List Address) (budget : Nat) :
    (explore isa img entries budget).Grounded entries := by
  have hacc := accurate_explore isa img entries budget
  refine ⟨fun a ha => (hacc.mem_widths.1 ha).1, fun a ha => ?_, fun l hl => ?_⟩
  · exact mem_starts.2 (named_of_visited (hacc.mem_widths.1 ha).1)
  · obtain ⟨hsource, hmem⟩ := hacc.mem_links.1 hl
    refine hacc.mem_widths.2 ⟨hsource, ?_⟩
    cases hfound : found? isa img l.source with
    | none =>
      rw [linksAt_of_undecoded hfound] at hmem
      cases hmem
    | some i => exact ⟨i, rfl⟩

namespace Grounded

variable (h : g.Grounded entries)
include h

theorem blocksFrom_starts :
    (g.blocksFrom (g.starts entries) (g.starts entries).toList {}).1 =
      (g.starts entries).toList.filterMap g.blockAt ∧
    ∀ a ∈ g.widths,
      (g.blocksFrom (g.starts entries) (g.starts entries).toList {}).2[a]? = some a := by
  have hnodup : (g.starts entries).toList.Nodup :=
    Std.TreeSet.distinct_toList.imp fun hne heq => hne (by simp [heq])
  have hnew : ∀ a ∈ (g.starts entries).toList, a ∉ ({} : Owners) := by simp
  obtain ⟨hblocks, howners⟩ := blocksFrom_eq h.start h.visited hnodup hnew
  refine ⟨hblocks, fun a ha => (howners a).trans (if_pos ⟨?_, ha⟩)⟩
  exact Std.TreeSet.mem_toList.2 (h.start a ha)

theorem blocks_report : (g.report entries).blocks = (g.starts entries).toList.filterMap g.blockAt :=
  h.blocksFrom_starts.1

/-- There is a block for each instruction and no other. -/
theorem mem_blocks {b : Block} : b ∈ (g.report entries).blocks ↔
    ∃ w, g.widths[b.start]? = some w ∧ b.stop = b.start + .ofNat 32 w := by
  rw [h.blocks_report, List.mem_filterMap]
  constructor
  · rintro ⟨a, -, hb⟩
    exact (blockAt_eq_some.1 hb).2
  · intro hb
    have hblock := blockAt_eq_some.2 ⟨rfl, hb⟩
    exact ⟨b.start, Std.TreeSet.mem_toList.2 (h.start _ (mem_widths_of_blockAt hblock)), hblock⟩

theorem pairwise_blocks : (g.report entries).blocks.Pairwise fun b b' => b.start < b'.start := by
  rw [h.blocks_report]
  refine List.Pairwise.filterMap _ ?_ Std.TreeSet.ordered_toList
  intro a a' hlt b hb b' hb'
  obtain ⟨rfl, -⟩ := blockAt_eq_some.1 hb
  obtain ⟨rfl, -⟩ := blockAt_eq_some.1 hb'
  exact compareOfLessAndEq_eq_lt.1 hlt

/-- A block holds its first instruction and no other. -/
theorem holds_iff {b : Block} (hb : b ∈ (g.report entries).blocks) :
    b.Holds g.widths a ↔ a = b.start := by
  obtain ⟨w, hw, hstop⟩ := h.mem_blocks.1 hb
  constructor
  · intro ha
    induction ha with
    | start => rfl
    | next _ hw' hne ih =>
      -- After its first instruction the block is at its end.
      subst ih
      obtain rfl := Option.some.inj (hw.symm.trans hw')
      exact absurd hstop.symm hne
  · rintro rfl
    exact .start

/-- An instruction is in the block that it starts and in no other. -/
theorem existsUnique_block (ha : a ∈ g.widths) :
    ∃! b, b ∈ (g.report entries).blocks ∧ b.Holds g.widths a := by
  obtain ⟨w, hw⟩ := mem_widths_iff.1 ha
  have hblock : g.blockAt a = some ⟨a, a + .ofNat 32 w⟩ := blockAt_eq_some.2 ⟨rfl, w, hw, rfl⟩
  refine ⟨⟨a, a + .ofNat 32 w⟩, ⟨h.mem_blocks.2 ⟨w, hw, rfl⟩, .start⟩, ?_⟩
  rintro b ⟨hb, hholds⟩
  have hown := blockAt_eq_some.2 ⟨(h.holds_iff hb).1 hholds, h.mem_blocks.1 hb⟩
  exact Option.some.inj (hown.symm.trans hblock)

/-- Links keep their sources, which start blocks. -/
theorem links_report : (g.report entries).links = g.links.toList := by
  refine List.map_congr_left (fun l hl => ?_) |>.trans (List.map_id _)
  have howner := h.blocksFrom_starts.2 _ (h.source l (Array.mem_toList_iff.1 hl))
  simp [Std.TreeMap.getD_eq_getD_getElem?, howner]

theorem exists_block_of_link {l : Link} (hl : l ∈ (g.report entries).links) :
    ∃ b ∈ (g.report entries).blocks, b.start = l.source := by
  rw [h.links_report, Array.mem_toList_iff] at hl
  obtain ⟨b, ⟨hb, hholds⟩, -⟩ := h.existsUnique_block (h.source l hl)
  exact ⟨b, hb, ((h.holds_iff hb).1 hholds).symm⟩

end Grounded

/-- Whatever the budget, each block of a report is cut by a loop that ends, blocks come in the
order of their starts, each decoded address is in one block and no other, and links leave from
starts of blocks. -/
theorem blocks_partition (isa : Isa) (img : Image) (entries : List Address) (budget : Nat) :
    let g := explore isa img entries budget
    let r := g.report entries
    (∀ start owners, Walks g (g.starts entries) start start owners
      (g.walk (g.starts entries) start g.widths.size start owners)) ∧
    r.blocks.Pairwise (fun b b' => b.start < b'.start) ∧
    (∀ a ∈ g.widths, ∃! b, b ∈ r.blocks ∧ b.Holds g.widths a) ∧
    (∀ b ∈ r.blocks, b.start ∈ g.widths) ∧
    ∀ l ∈ r.links, ∃ b ∈ r.blocks, b.start = l.source := by
  intro g r
  have h : g.Grounded entries := grounded_explore isa img entries budget
  refine ⟨fun _ _ => walks_walk h.start, h.pairwise_blocks, fun _ => h.existsUnique_block,
    fun b hb => ?_, fun _ => h.exists_block_of_link⟩
  obtain ⟨w, hw, -⟩ := h.mem_blocks.1 hb
  exact mem_widths_iff.2 ⟨w, hw⟩

/-- A budget of two instructions cuts the search short at the call. -/
theorem blocks_partition_cut :
    let g := explore .v16 jumpAndCall [0, 7] 2
    g.widths.size = 2 ∧ (∃! b, b ∈ (g.report [0, 7]).blocks ∧ b.Holds g.widths 4) ∧
      ∃ b ∈ (g.report [0, 7]).blocks, b.start = 0 := by
  obtain ⟨-, -, hblock, -, hlink⟩ := blocks_partition .v16 jumpAndCall [0, 7] 2
  refine ⟨by decide +kernel, hblock 4 (by decide +kernel), ?_⟩
  exact hlink ⟨0, 4, .branch⟩ (by decide +kernel)

theorem next_ne_of_width (isa : Isa) (img : Image) (entries : List Address) (budget : Nat) {w : Nat}
    (h : (explore isa img entries budget).widths[pc]? = some w) : pc + .ofNat 32 w ≠ pc := by
  obtain ⟨-, i, hi, hlen⟩ := (accurate_explore isa img entries budget).width_eq_some.1 h
  obtain ⟨insn, hdecode, rfl⟩ := found?_eq_some.1 hi
  obtain ⟨hpos, hle, -⟩ := Instruction.length_of_decode_le hdecode
  dsimp only at hlen
  intro heq
  have hzero : BitVec.ofNat 32 w = BitVec.ofNat 32 0 := add_eq_left.1 heq
  have hmod := congrArg BitVec.toNat hzero
  simp only [BitVec.toNat_ofNat] at hmod
  omega

/-- Whatever the budget, each decoded address has a block with its instruction alone, so an
instruction is never in the same block as the one after it. -/
theorem blocks_hold_one_instruction (isa : Isa) (img : Image) (entries : List Address)
    (budget : Nat) :
    let g := explore isa img entries budget
    let r := g.report entries
    (∀ b, b ∈ r.blocks ↔ ∃ w, g.widths[b.start]? = some w ∧ b.stop = b.start + .ofNat 32 w) ∧
    (∀ b ∈ r.blocks, ∀ a, b.Holds g.widths a ↔ a = b.start) ∧
    ∀ p w, g.widths[p]? = some w → ∀ b ∈ r.blocks, b.Holds g.widths p →
      ¬b.Holds g.widths (p + .ofNat 32 w) := by
  intro g r
  have h : g.Grounded entries := grounded_explore isa img entries budget
  refine ⟨fun b => h.mem_blocks, fun b hb a => h.holds_iff hb, fun p w hw b hb hp hnext => ?_⟩
  have hstart := (h.holds_iff hb).1 hp
  have hsame := (h.holds_iff hb).1 hnext
  exact next_ne_of_width isa img entries budget hw (hsame.trans hstart.symm)

/-- `nop` and a return after it. -/
def nopThenReturn : Image := [{ base := 0, bytes := #[0x00, 0x00, 0x00, 0x90] }]

theorem blocks_hold_one_instruction_nop :
    let g := explore .v16 nopThenReturn [0] 10
    ⟨0, 2⟩ ∈ (g.report [0]).blocks ∧ ¬Block.Holds g.widths ⟨0, 2⟩ 2 := by
  obtain ⟨hblock, -, hnext⟩ := blocks_hold_one_instruction .v16 nopThenReturn [0] 10
  have hwidth : (explore .v16 nopThenReturn [0] 10).widths[(0 : Address)]? = some 2 := by
    decide +kernel
  have hmem := (hblock ⟨0, 2⟩).2 ⟨2, hwidth, rfl⟩
  exact ⟨hmem, hnext 0 2 hwidth ⟨0, 2⟩ hmem .start⟩

/-- A `nop` has no branches, and nothing but it leads to the return after it, which is no entry; yet
no block of the report holds both. -/
theorem straight_line_is_cut :
    let g := explore .v16 nopThenReturn [0] 10
    g.widths.size < 10 ∧ found? .v16 nopThenReturn 0 = some ⟨0, 2, []⟩ ∧
      g.widths[(0 : Address)]? = some 2 ∧ 2 ∈ g.widths ∧ (2 : Address) ∉ ([0] : List Address) ∧
      g.links.toList.filter (·.target = 2) = [⟨0, 2, .fallThrough⟩] ∧
      ¬∃ b ∈ (g.report [0]).blocks, b.Holds g.widths 0 ∧ b.Holds g.widths 2 := by
  refine ⟨?_, ?_, ?_, ?_, ?_, ?_, ?_⟩
  case refine_2 => rfl
  case refine_7 =>
    have h := grounded_explore .v16 nopThenReturn [0] 10
    rintro ⟨b, hb, hnop, hreturn⟩
    have hsame := ((h.holds_iff hb).1 hnop).trans ((h.holds_iff hb).1 hreturn).symm
    exact absurd hsame (by decide)
  all_goals decide +kernel

end CodeGraph

end Tricore
