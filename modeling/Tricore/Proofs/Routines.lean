import Mathlib
import Tricore.Proofs.Blocks

/-!
# Functions

The functions of a report start at the visited entries and targets of calls, and each lists what can
be reached from its start without a call (`routines_list_reachable`). `Flows` are the links that a
function follows; `Gathers` is the loop that follows them, with no bound on its turns. It ends on
every graph, since each link is followed once.

What is reached need not decode, and only what decodes has a block: an address that a function lists
starts a block exactly if an instruction decodes there (`listed_starts_block_iff`).
-/

namespace Tricore

namespace CodeGraph

variable {links : List Link} {a b entry : Address} {queue : List Address}
  {seen found : Std.TreeSet Address}

/-- A link other than a call leads from one address to the other. -/
def Flows (links : List Link) (a b : Address) : Prop :=
  ∃ l ∈ links, l.kind ≠ .call ∧ l.source = a ∧ l.target = b

/-! ## Links by source -/

/-- The links from an address that a function follows. -/
def followed (links : List Link) (a : Address) : List Link :=
  links.filter fun l => l.kind ≠ .call ∧ l.source = a

theorem mem_followed {l : Link} : l ∈ followed links a ↔
    l ∈ links ∧ l.kind ≠ .call ∧ l.source = a := by
  simp [followed]

theorem getD_adjacency (links : List Link) (a : Address) :
    (adjacency links).getD a [] = (followed links a).map (·.target) := by
  induction links using List.reverseRecOn with
  | nil => simp [adjacency, followed]
  | append_singleton links l ih =>
    have hstep : adjacency (links ++ [l]) = if l.kind = .call then adjacency links else
        (adjacency links).insert l.source ((adjacency links).getD l.source [] ++ [l.target]) := by
      rw [adjacency, List.foldl_append]
      rfl
    rw [hstep, followed, List.filter_append, ← followed]
    by_cases hcall : l.kind = .call
    · simp [hcall, ih]
    · by_cases ha : l.source = a
      · subst ha
        simp [hcall, ih]
      · simp [hcall, ha, ih, Std.TreeMap.getD_insert]

theorem mem_adjacency : b ∈ (adjacency links).getD a [] ↔ Flows links a b := by
  rw [getD_adjacency, List.mem_map]
  simp only [mem_followed, Flows, and_assoc]

/-! ## Gathering a function -/

/-- The loop that gathers what can be reached from a queue, with no bound on its turns. -/
inductive Gathers (adj : Std.TreeMap Address (List Address)) :
    List Address → Std.TreeSet Address → Std.TreeSet Address → Prop
  | stop {seen : Std.TreeSet Address} : Gathers adj [] seen seen
  | again {b : Address} {queue : List Address} {seen found : Std.TreeSet Address} (h : b ∈ seen)
    (hrest : Gathers adj queue seen found) : Gathers adj (b :: queue) seen found
  | new {b : Address} {queue : List Address} {seen found : Std.TreeSet Address} (h : b ∉ seen)
    (hrest : Gathers adj (queue ++ adj.getD b []) (seen.insert b) found) :
    Gathers adj (b :: queue) seen found

/-- The links still to be followed, those from addresses that have not been seen. -/
def unfollowed (links : List Link) (seen : Std.TreeSet Address) : Nat :=
  links.countP fun l => l.kind ≠ .call ∧ l.source ∉ seen

/-- Seeing an address uses up the links from it. -/
theorem unfollowed_insert (links : List Link) (h : b ∉ seen) :
    unfollowed links (seen.insert b) + ((adjacency links).getD b []).length =
      unfollowed links seen := by
  rw [getD_adjacency, List.length_map, followed, ← List.countP_eq_length_filter]
  unfold unfollowed
  induction links with
  | nil => rfl
  | cons l links ih =>
    -- A link that the insertion changes is one from `b`.
    have hhead : (l.kind ≠ .call ∧ l.source ∉ seen) ↔
        (l.kind ≠ .call ∧ l.source ∉ seen.insert b) ∨ (l.kind ≠ .call ∧ l.source = b) := by
      rw [Std.TreeSet.mem_insert, Std.compare_eq_iff_eq]
      by_cases hb : b = l.source
      · subst hb
        simp [h]
      · simp [hb, Ne.symm hb]
    have hdisjoint : l.source ∈ seen.insert l.source := by simp
    simp only [List.countP_cons, decide_eq_true_eq]
    grind

/-- Steps for the queue and for the links still to be followed are enough. -/
theorem gathers_reach {fuel : Nat} (h : queue.length + unfollowed links seen ≤ fuel) :
    Gathers (adjacency links) queue seen (reach (adjacency links) fuel queue seen) := by
  induction fuel generalizing queue seen with
  | zero =>
    obtain rfl : queue = [] := List.length_eq_zero_iff.1 (by omega)
    exact .stop
  | succ fuel ih =>
    cases queue with
    | nil => exact .stop
    | cons b queue =>
      rw [List.length_cons] at h
      rw [reach]
      by_cases hb : b ∈ seen
      · rw [if_pos (Std.TreeSet.contains_iff_mem.2 hb)]
        exact .again hb (ih (by omega))
      · rw [if_neg (mt Std.TreeSet.contains_iff_mem.1 hb)]
        have hused := unfollowed_insert links hb
        refine .new hb (ih ?_)
        rw [List.length_append]
        omega

/-- The search for a function ends by itself, whatever the links. -/
theorem gathers_routine (links : List Link) (entry : Address) :
    Gathers (adjacency links) [entry] {}
      (reach (adjacency links) (links.length + 1) [entry] {}) := by
  have hlinks : unfollowed links {} ≤ links.length := List.countP_le_length
  refine gathers_reach ?_
  rw [List.length_singleton]
  omega

namespace Gathers

variable {adj : Std.TreeMap Address (List Address)}

theorem subset (h : Gathers adj queue seen found) :
    (∀ a ∈ seen, a ∈ found) ∧ ∀ a ∈ queue, a ∈ found := by
  induction h with
  | stop => exact ⟨fun _ ha => ha, by simp⟩
  | again hb _ ih =>
    refine ⟨ih.1, fun a ha => ?_⟩
    rcases List.mem_cons.1 ha with rfl | ha
    · exact ih.1 _ hb
    · exact ih.2 a ha
  | @new b queue seen found hb _ ih =>
    refine ⟨fun a ha => ih.1 a (by simp [Std.TreeSet.mem_insert, ha]), fun a ha => ?_⟩
    rcases List.mem_cons.1 ha with rfl | ha
    · exact ih.1 _ (by simp)
    · exact ih.2 a (List.mem_append_left _ ha)

/-- Whatever is new in the result has been followed. -/
theorem closed (h : Gathers adj queue seen found) (ha : a ∈ found) (hnew : a ∉ seen)
    (hb : b ∈ adj.getD a []) : b ∈ found := by
  induction h with
  | stop => exact absurd ha hnew
  | again _ _ ih => exact ih ha hnew
  | @new x queue seen found hx hrest ih =>
    by_cases hxa : x = a
    · subst hxa
      exact hrest.subset.2 b (List.mem_append_right _ hb)
    · exact ih ha (by simp [Std.TreeSet.mem_insert, hxa, hnew])

/-- Nothing is found outside a set that the links do not leave. -/
theorem within (h : Gathers adj queue seen found) {S : Set Address}
    (hS : ∀ a ∈ S, ∀ b ∈ adj.getD a [], b ∈ S) (hseen : ∀ a ∈ seen, a ∈ S)
    (hqueue : ∀ a ∈ queue, a ∈ S) : ∀ a ∈ found, a ∈ S := by
  induction h with
  | stop => exact hseen
  | again _ _ ih => exact ih hseen fun a ha => hqueue a (List.mem_cons_of_mem _ ha)
  | @new b queue seen found _ _ ih =>
    have hb : b ∈ S := hqueue b List.mem_cons_self
    refine ih (fun a ha => ?_) fun a ha => ?_
    · rcases Std.TreeSet.mem_insert.1 ha with heq | ha
      · rwa [← Std.compare_eq_iff_eq.1 heq]
      · exact hseen a ha
    · rcases List.mem_append.1 ha with ha | ha
      · exact hqueue a (List.mem_cons_of_mem _ ha)
      · exact hS b hb a ha

/-- A search from one address finds what can be reached from it. -/
theorem mem_iff (h : Gathers (adjacency links) [entry] {} found) :
    a ∈ found ↔ Relation.ReflTransGen (Flows links) entry a := by
  constructor
  · refine h.within (S := {a | Relation.ReflTransGen (Flows links) entry a}) ?_ ?_ ?_ a
    · exact fun a ha b hb => ha.tail (mem_adjacency.1 hb)
    · simp
    · intro a ha
      rw [List.mem_singleton.1 ha]
      exact .refl
  · intro ha
    induction ha with
    | refl => exact h.subset.2 entry (List.mem_singleton_self _)
    | tail _ hflow ih => exact h.closed ih (by simp) (mem_adjacency.2 hflow)

end Gathers

/-! ## The functions of a report -/

theorem pairwise_toList (s : Std.TreeSet Address) : s.toList.Pairwise (· < ·) := by
  have hordered : s.toList.Pairwise fun a b => compare a b = .lt := Std.TreeSet.ordered_toList
  exact hordered.imp fun hlt => compareOfLessAndEq_eq_lt.1 hlt

section Report

variable {g : CodeGraph} {entries : List Address}

theorem entries_routines (g : CodeGraph) (entries : List Address) :
    (g.report entries).routines.map (·.entry) =
      (Std.TreeSet.ofList (entries ++ g.calls.toList)).toList.filter g.visited.contains := by
  simp only [report, List.map_map]
  exact List.map_id _

theorem mem_entries_routines : a ∈ (g.report entries).routines.map (·.entry) ↔
    a ∈ g.visited ∧ (a ∈ entries ∨ a ∈ g.calls) := by
  rw [entries_routines]
  simp [Std.TreeSet.mem_ofList, and_comm]

theorem routine_of_mem {f : Routine} (h : f ∈ (g.report entries).routines) :
    f = g.routine (g.report entries).links (adjacency (g.report entries).links) f.entry := by
  obtain ⟨e, -, rfl⟩ := List.mem_map.1 h
  rfl

theorem pairwise_blocks_routine {f : Routine} (h : f ∈ (g.report entries).routines) :
    f.blocks.Pairwise (· < ·) := by
  rw [routine_of_mem h]
  exact (pairwise_toList _).filter _

theorem mem_blocks_routine {f : Routine} (h : f ∈ (g.report entries).routines) :
    a ∈ f.blocks ↔ a ∈ g.visited ∧
      Relation.ReflTransGen (Flows (g.report entries).links) f.entry a := by
  conv_lhs => rw [routine_of_mem h]
  simp only [routine, List.mem_filter, Std.TreeSet.mem_toList, Std.TreeSet.contains_iff_mem]
  rw [(gathers_routine _ _).mem_iff, and_comm]

end Report

/-- Whatever the budget, the functions of a report start at the visited entries and targets of
calls, in order and each once, and a function lists in order the visited addresses that links other
than calls lead to from its start. The search for them ends by itself on every graph. -/
theorem routines_list_reachable (isa : Isa) (img : Image) (entries : List Address)
    (budget : Nat) :
    let g := explore isa img entries budget
    let r := g.report entries
    (r.routines.map (·.entry)).Pairwise (· < ·) ∧
    (∀ e, e ∈ r.routines.map (·.entry) ↔
      e ∈ g.visited ∧ (e ∈ entries ∨ ∃ l ∈ r.links, l.kind = .call ∧ l.target = e)) ∧
    (∀ f ∈ r.routines, f.blocks.Pairwise (· < ·) ∧
      ∀ a, a ∈ f.blocks ↔ a ∈ g.visited ∧ Relation.ReflTransGen (Flows r.links) f.entry a) ∧
    ∀ links entry, Gathers (adjacency links) [entry] {}
      (reach (adjacency links) (links.length + 1) [entry] {}) := by
  intro g r
  have hacc : g.Accurate isa img := accurate_explore isa img entries budget
  have hlinks : r.links = g.links.toList := (grounded_explore isa img entries budget).links_report
  refine ⟨?_, fun e => ?_, fun f hf => ⟨pairwise_blocks_routine hf, fun a => mem_blocks_routine hf⟩,
    gathers_routine⟩
  · rw [entries_routines]
    exact (pairwise_toList _).filter _
  · rw [mem_entries_routines, hacc.call, hlinks]
    simp only [Array.mem_toList_iff]

/-- A call, a jump back to it, and the function that is called. -/
def callInLoop : Image := [{ base := 0, bytes := #[0x5C, 0x02, 0x3C, 0xFF, 0x00, 0x90] }]

theorem routines_list_reachable_loop :
    let r := (explore .v16 callInLoop [0] 10).report [0]
    ⟨0, [0, 2]⟩ ∈ r.routines ∧ Relation.ReflTransGen (Flows r.links) 0 2 ∧
      ¬Relation.ReflTransGen (Flows r.links) 0 4 ∧ 4 ∈ r.routines.map (·.entry) := by
  obtain ⟨-, hentry, hroutine, -⟩ := routines_list_reachable .v16 callInLoop [0] 10
  have hmem : ⟨0, [0, 2]⟩ ∈ ((explore .v16 callInLoop [0] 10).report [0]).routines := by
    decide +kernel
  have hblocks := (hroutine _ hmem).2
  have hvisited : 4 ∈ (explore .v16 callInLoop [0] 10).visited := by decide +kernel
  refine ⟨hmem, ((hblocks 2).1 (by decide)).2, fun hreach => ?_, (hentry 4).2 ⟨hvisited, .inr ?_⟩⟩
  · exact absurd ((hblocks 4).2 ⟨hvisited, hreach⟩) (by decide)
  · exact ⟨⟨0, 4, .call⟩, by decide +kernel, rfl, rfl⟩

/-! ## Functions and blocks -/

/-- Whatever the budget, an address that a function lists starts a block exactly if an instruction
decodes there; otherwise control ends at it. -/
theorem listed_starts_block_iff (isa : Isa) (img : Image) (entries : List Address)
    (budget : Nat) :
    let g := explore isa img entries budget
    let r := g.report entries
    ∀ f ∈ r.routines, ∀ a ∈ f.blocks,
      ((∃ b ∈ r.blocks, b.start = a) ↔ ∃ i, found? isa img a = some i) ∧
      (found? isa img a = none → a ∈ g.terminators ∧ ∀ l ∈ r.links, l.source ≠ a) := by
  intro g r f hf a ha
  have hacc : g.Accurate isa img := accurate_explore isa img entries budget
  have h : g.Grounded entries := grounded_explore isa img entries budget
  have hvisited : a ∈ g.visited := ((mem_blocks_routine hf).1 ha).1
  have hwidth : a ∈ g.widths ↔ ∃ i, found? isa img a = some i := by simp [hacc.mem_widths, hvisited]
  refine ⟨Iff.trans ⟨?_, fun hw => ?_⟩ hwidth, fun hnone => ⟨?_, fun l hl hsource => ?_⟩⟩
  · rintro ⟨b, hb, rfl⟩
    obtain ⟨w, hw, -⟩ := h.mem_blocks.1 hb
    exact mem_widths_iff.2 ⟨w, hw⟩
  · obtain ⟨w, hw⟩ := mem_widths_iff.1 hw
    exact ⟨⟨a, a + .ofNat 32 w⟩, h.mem_blocks.2 ⟨w, hw, rfl⟩, rfl⟩
  · exact (hacc.terminator a).2 ⟨hvisited, by simp [hnone]⟩
  · rw [h.links_report, Array.mem_toList_iff] at hl
    obtain ⟨i, hi⟩ := hwidth.1 (hsource ▸ h.source l hl)
    simp [hnone] at hi

/-- `nop`, and bytes after it that do not decode. -/
def nopThenNothing : Image := [{ base := 0, bytes := #[0x00, 0x00, 0x21, 0x00, 0x00, 0x00] }]

theorem listed_starts_block_iff_nop :
    let r := (explore .v16 nopThenNothing [0] 10).report [0]
    ⟨0, [0, 2]⟩ ∈ r.routines ∧ (∃ b ∈ r.blocks, b.start = 0) ∧ ¬∃ b ∈ r.blocks, b.start = 2 := by
  have hmem : ⟨0, [0, 2]⟩ ∈ ((explore .v16 nopThenNothing [0] 10).report [0]).routines := by
    decide +kernel
  have hstarts := listed_starts_block_iff .v16 nopThenNothing [0] 10 _ hmem
  refine ⟨hmem, (hstarts 0 (by simp)).1.2 ⟨⟨0, 2, []⟩, rfl⟩, fun hblock => ?_⟩
  obtain ⟨i, hi⟩ := (hstarts 2 (by simp)).1.1 hblock
  exact absurd hi (by rw [show found? .v16 nopThenNothing 2 = none from rfl]; simp)

/-- The function at address 0 lists the address after the `nop`, and no block starts there. -/
theorem listed_without_block :
    let r := (explore .v16 nopThenNothing [0] 10).report [0]
    ¬∀ f ∈ r.routines, ∀ a ∈ f.blocks, ∃ b ∈ r.blocks, b.start = a := by
  intro r hall
  have hmem : ⟨0, [0, 2]⟩ ∈ r.routines := by decide +kernel
  have hblocks : r.blocks = [⟨0, 2⟩] := by decide +kernel
  obtain ⟨b, hb, hstart⟩ := hall _ hmem 2 (by simp)
  rw [hblocks, List.mem_singleton] at hb
  subst hb
  exact absurd hstart (by decide)

end CodeGraph

end Tricore
