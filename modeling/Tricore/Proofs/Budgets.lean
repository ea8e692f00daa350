import Mathlib
import Tricore.Proofs.Exploration

/-!
# Budgets

A budget cuts a search short and changes nothing else (`budget_truncates`): with a larger one, the
search takes the same turns and goes on from where it would have stopped (`explore_add`). Turns do
not depend on how much of the budget is left (`Turn.more`), and none changes what the search comes
to in the end (`Turn.result_eq`).
-/

namespace Tricore

namespace CodeGraph

variable {isa : Isa} {img : Image} {entries : List Address} {g g' : CodeGraph}

/-- One graph has all that the other has, with its links first and in the same order. -/
structure Extends (g' g : CodeGraph) : Prop where
  links : g.links.toList <+: g'.links.toList
  visited : ∀ a ∈ g.visited, a ∈ g'.visited
  width : ∀ (a : Address) (w : Nat), g.widths[a]? = some w → g'.widths[a]? = some w
  terminator : ∀ a ∈ g.terminators, a ∈ g'.terminators
  call : ∀ t ∈ g.calls, t ∈ g'.calls

/-- Of accurate graphs, one that visits more has more. -/
theorem Accurate.extends (h : g.Accurate isa img) (h' : g'.Accurate isa img)
    (hvisited : ∀ a ∈ g.visited, a ∈ g'.visited) (hlinks : g.links.toList <+: g'.links.toList) :
    g'.Extends g where
  links := hlinks
  visited := hvisited
  width a w hw := by
    obtain ⟨ha, hfound⟩ := h.width_eq_some.1 hw
    exact h'.width_eq_some.2 ⟨hvisited a ha, hfound⟩
  terminator a ha := by
    obtain ⟨hold, hends⟩ := (h.terminator a).1 ha
    exact (h'.terminator a).2 ⟨hvisited a hold, hends⟩
  call t ht := by
    obtain ⟨l, hl, hcall⟩ := (h.call t).1 ht
    refine (h'.call t).2 ⟨l, ?_, hcall⟩
    exact Array.mem_toList_iff.1 (hlinks.subset (Array.mem_toList_iff.2 hl))

theorem descend_nil (isa : Isa) (img : Image) (left : Nat) (g : CodeGraph) :
    descend isa img left [] g = g := by
  cases left <;> rfl

namespace Search

variable {s s' : Search} {n budget : Nat}

/-- The search with more of its budget left. -/
def more (s : Search) (extra : Nat) : Search := { s with left := s.left + extra }

/-- What the search comes to in the end. -/
def result (isa : Isa) (img : Image) (s : Search) : CodeGraph :=
  descend isa img s.left s.queue s.graph

theorem Turn.more (h : Turn isa img s s') (extra : Nat) :
    Turn isa img (s.more extra) (s'.more extra) := by
  cases h with
  | again hold =>
    simp only [Search.more, Nat.add_right_comm _ 1 extra]
    exact .again hold
  | undecoded hnew hpc =>
    simp only [Search.more, Nat.add_right_comm _ 1 extra]
    exact .undecoded hnew hpc
  | decoded hnew hpc =>
    simp only [Search.more, Nat.add_right_comm _ 1 extra]
    exact .decoded hnew hpc

theorem Turns.more (h : Turns isa img n s s') (extra : Nat) :
    Turns isa img n (s.more extra) (s'.more extra) := by
  induction h with
  | refl => exact .refl _
  | step ht _ ih => exact .step (ht.more extra) ih

/-- A turn leads no other way than the search does. -/
theorem Turn.result_eq (h : Turn isa img s s') : s'.result isa img = s.result isa img := by
  unfold result
  cases h with
  | again hold =>
    rw [descend, descend, advance_cons, if_pos hold]
  | undecoded hnew hpc =>
    rw [descend, descend, advance_cons, if_neg hnew, hpc]
  | decoded hnew hpc =>
    rw [descend, advance_cons, if_neg hnew, hpc]

theorem Turns.result_eq (h : Turns isa img n s s') : s'.result isa img = s.result isa img := by
  induction h with
  | refl => rfl
  | step ht _ ih => rw [ih, ht.result_eq]

/-- A turn takes nothing out of the graph and adds links at its end. -/
theorem Turn.grows (h : Turn isa img s s') :
    (∀ a ∈ s.graph.visited, a ∈ s'.graph.visited) ∧
      s.graph.links.toList <+: s'.graph.links.toList := by
  obtain ⟨new, hlinks, -⟩ := h.spreads
  refine ⟨?_, new, hlinks.symm⟩
  cases h with
  | again => exact fun _ ha => ha
  | undecoded | decoded => exact fun _ ha => mem_visit.2 (.inr ha)

theorem Turns.grows (h : Turns isa img n s s') :
    (∀ a ∈ s.graph.visited, a ∈ s'.graph.visited) ∧
      s.graph.links.toList <+: s'.graph.links.toList := by
  induction h with
  | refl => exact ⟨fun _ ha => ha, List.prefix_rfl⟩
  | step ht _ ih =>
    obtain ⟨hvisited, hlinks⟩ := ht.grows
    exact ⟨fun a ha => ih.1 a (hvisited a ha), hlinks.trans ih.2⟩

/-- What a search comes to has all that it has found so far. -/
theorem result_grows (isa : Isa) (img : Image) (s : Search) :
    (∀ a ∈ s.graph.visited, a ∈ (s.result isa img).visited) ∧
      s.graph.links.toList <+: (s.result isa img).links.toList := by
  obtain ⟨n, s', hturns, -, hs⟩ := turns_descend isa img s.left s.queue s.graph
  have hresult : s.result isa img = s'.graph := hs.symm
  rw [hresult]
  exact hturns.grows

end Search

/-- With more of a budget, a search goes on from any of its turns. -/
theorem explore_add {n budget : Nat} {s : Search}
    (h : Search.Turns isa img n (.start img entries budget) s) (extra : Nat) :
    explore isa img entries (budget + extra) = (s.more extra).result isa img :=
  (h.more extra).result_eq.symm

/-- A search with a smaller budget finds a part of what one with a larger budget finds, its links
being the first ones. It decodes no more than its budget, and if it decodes less, the two searches
find the same. -/
theorem budget_truncates (isa : Isa) (img : Image) (entries : List Address) {m m' : Nat}
    (h : m ≤ m') :
    let g := explore isa img entries m
    let g' := explore isa img entries m'
    g'.Extends g ∧ g.widths.size ≤ m ∧ (g.widths.size < m → g = g') := by
  intro g g'
  obtain ⟨extra, rfl⟩ := Nat.exists_eq_add_of_le h
  obtain ⟨n, s, hturns, -, hs, hsound⟩ := Search.exists_over isa img entries m
  have hg : s.graph = g := hs
  have hg' : g' = (s.more extra).result isa img := explore_add hturns extra
  refine ⟨?_, ?_, fun hless => ?_⟩
  · have hgrows : (∀ a ∈ g.visited, a ∈ g'.visited) ∧ g.links.toList <+: g'.links.toList := by
      rw [hg', ← hg]
      exact (s.more extra).result_grows isa img
    exact (accurate_explore ..).extends (accurate_explore ..) hgrows.1 hgrows.2
  · have hspent := hsound.counts.spent
    rw [hg] at hspent
    omega
  · -- Some of the budget is left, so the queue is empty and more of it changes nothing.
    obtain ⟨n, s, hturns, hqueue, hs, -⟩ := exists_queue_empty hless
    have hend : g' = (s.more extra).result isa img := explore_add hturns extra
    rw [hend, Search.result, Search.more, hqueue, descend_nil]
    exact hs.symm

/-- A budget of one is used up before the call, one of four is not, and one of five finds the
same. -/
theorem budget_truncates_call :
    (explore .v16 jumpAndCall [0, 7] 5).Extends (explore .v16 jumpAndCall [0, 7] 1) ∧
      (explore .v16 jumpAndCall [0, 7] 1).links.size <
        (explore .v16 jumpAndCall [0, 7] 5).links.size ∧
      explore .v16 jumpAndCall [0, 7] 4 = explore .v16 jumpAndCall [0, 7] 5 := by
  have hcut := budget_truncates .v16 jumpAndCall [0, 7] (show 1 ≤ 5 by decide)
  have hwhole := budget_truncates .v16 jumpAndCall [0, 7] (show 4 ≤ 5 by decide)
  exact ⟨hcut.1, by decide +kernel, hwhole.2.2 (by decide +kernel)⟩

end CodeGraph

end Tricore
