import Mathlib
import Tricore.CodeGraph

/-!
# What a search finds

A search from some entries finds exactly what can be reached from them, unless its budget cuts it
short (`explore_finds_reachable`).

A search is followed one turn at a time: `Search.Turn` takes the first address off the queue, and
`Search.Turns` counts turns. Three things hold after every turn. `Accurate`: the graph records what
the image has at each visited address, and nothing else. `Search.Covers`: what the entries and the
links lead to is visited or in the queue, and everything there can be reached. `Search.Counts`: the
budget is spent on widths. The links that a graph can have bound the turns.
-/

namespace Tricore

namespace CodeGraph

variable {isa : Isa} {img : Image} {entries : List Address} {g : CodeGraph} {pc a t : Address}
  {i : Found}

/-! ## The instructions of an image -/

/-- The instruction that an image has at an address, if one decodes there. -/
def found? (isa : Isa) (img : Image) (pc : Address) : Option Found :=
  match probe isa (img.code pc) pc (img.code pc).length with
  | .ok (length, edges) => some ⟨pc, length, edges⟩
  | .error _ => none

/-- The links that leave an address. -/
def linksAt (isa : Isa) (img : Image) (pc : Address) : List Link :=
  match found? isa img pc with
  | some i => i.links
  | none => []

theorem found?_eq_some : found? isa img pc = some i ↔
    ∃ insn, Instruction.decode isa (img.code pc) pc = .ok insn ∧
      i = ⟨pc, insn.length, insn.edges⟩ := by
  unfold found? probe
  rw [List.take_length]
  cases Instruction.decode isa (img.code pc) pc with
  | error e => simp [bind, Except.bind]
  | ok insn => simp [bind, Except.bind, pure, Except.pure, eq_comm]

theorem pc_of_found? (h : found? isa img pc = some i) : i.pc = pc := by
  obtain ⟨insn, -, rfl⟩ := found?_eq_some.1 h
  rfl

theorem linksAt_of_found? (h : found? isa img pc = some i) : linksAt isa img pc = i.links := by
  rw [linksAt, h]

theorem linksAt_of_undecoded (h : found? isa img pc = none) : linksAt isa img pc = [] := by
  rw [linksAt, h]

theorem source_of_mem_links {l : Link} (h : l ∈ i.links) : l.source = i.pc := by
  unfold Found.links linksOf at h
  split at h
  · rw [List.mem_singleton.1 h]
  · obtain ⟨e, -, hl⟩ := List.mem_flatMap.1 h
    cases e <;> simp at hl
    case call => rcases hl with rfl | rfl <;> rfl
    all_goals rw [hl]

theorem source_of_mem_linksAt {l : Link} (h : l ∈ linksAt isa img pc) : l.source = pc := by
  unfold linksAt at h
  split at h
  · next i hi => exact (source_of_mem_links h).trans (pc_of_found? hi)
  · cases h

/-- Calls are among the links, and no other link is of their kind. -/
theorem mem_callTargets :
    t ∈ callTargets i.edges ↔ ∃ l ∈ i.links, l.kind = .call ∧ l.target = t := by
  unfold Found.links linksOf callTargets
  split
  · next h => simp [h]
  · next hne =>
    simp only [List.mem_filterMap, List.mem_flatMap]
    constructor
    · rintro ⟨e, he, ht⟩
      cases e <;> simp at ht
      subst ht
      exact ⟨_, ⟨_, he, List.mem_cons_self⟩, rfl, rfl⟩
    · rintro ⟨l, ⟨e, he, hl⟩, hkind, rfl⟩
      refine ⟨e, he, ?_⟩
      cases e <;> simp at hl
      case call =>
        rcases hl with rfl | rfl
        · rfl
        · cases hkind
      all_goals
        subst hl
        cases hkind

theorem length_links_le (h : found? isa img pc = some i) : i.links.length ≤ 2 := by
  obtain ⟨insn, -, rfl⟩ := found?_eq_some.1 h
  unfold Found.links
  dsimp only
  unfold Instruction.edges
  split
  case h_5 | h_6 => cases insn.firstRegister? <;> simp [linksOf]
  all_goals simp [linksOf]

/-! ## Graphs -/

@[simp] theorem mem_visit : a ∈ (g.visit pc).visited ↔ pc = a ∨ a ∈ g.visited := by
  simp [visit, Std.TreeSet.mem_insert]

@[simp] theorem widths_visit : (g.visit pc).widths = g.widths := rfl

@[simp] theorem links_visit : (g.visit pc).links = g.links := rfl

@[simp] theorem terminators_visit : (g.visit pc).terminators = g.terminators := rfl

@[simp] theorem calls_visit : (g.visit pc).calls = g.calls := rfl

@[simp] theorem mem_terminate : a ∈ (g.terminate pc).terminators ↔ pc = a ∨ a ∈ g.terminators := by
  simp [terminate, Std.TreeSet.mem_insert]

@[simp] theorem visited_terminate : (g.terminate pc).visited = g.visited := rfl

@[simp] theorem widths_terminate : (g.terminate pc).widths = g.widths := rfl

@[simp] theorem links_terminate : (g.terminate pc).links = g.links := rfl

@[simp] theorem visited_add : (g.add i).visited = g.visited := rfl

@[simp] theorem width_add :
    (g.add i).widths[a]? = if i.pc = a then some i.length else g.widths[a]? := by
  simp [add, Std.TreeMap.getElem?_insert]

@[simp] theorem mem_terminators_add :
    a ∈ (g.add i).terminators ↔ i.pc = a ∧ terminates i.edges = true ∨ a ∈ g.terminators := by
  unfold add
  dsimp only
  split <;> simp_all [Std.TreeSet.mem_insert]

@[simp] theorem toList_links_add : (g.add i).links.toList = g.links.toList ++ i.links :=
  Array.toList_appendList

@[simp] theorem size_links_add : (g.add i).links.size = g.links.size + i.links.length := by
  rw [← Array.length_toList, toList_links_add, List.length_append, Array.length_toList]

@[simp] theorem mem_links_add {l : Link} : l ∈ (g.add i).links ↔ l ∈ g.links ∨ l ∈ i.links := by
  rw [← Array.mem_toList_iff, toList_links_add, List.mem_append, Array.mem_toList_iff]

@[simp] theorem mem_calls_add : t ∈ (g.add i).calls ↔ t ∈ callTargets i.edges ∨ t ∈ g.calls := by
  unfold add
  dsimp only
  generalize g.calls = calls
  induction callTargets i.edges generalizing calls with
  | nil => simp
  | cons c cs ih =>
    rw [List.foldl_cons, ih, Std.TreeSet.mem_insert, Std.compare_eq_iff_eq, List.mem_cons,
      eq_comm (a := c)]
    tauto

/-- The graph records what the image has at each address that it has visited, and nothing else. -/
structure Accurate (isa : Isa) (img : Image) (g : CodeGraph) : Prop where
  width : ∀ a, g.widths[a]? = if a ∈ g.visited then (found? isa img a).map (·.length) else none
  terminator : ∀ a, a ∈ g.terminators ↔
    a ∈ g.visited ∧ ∀ i, found? isa img a = some i → terminates i.edges = true
  link : ∀ a, g.links.toList.filter (·.source = a) =
    if a ∈ g.visited then linksAt isa img a else []
  call : ∀ t, t ∈ g.calls ↔ ∃ l ∈ g.links, l.kind = .call ∧ l.target = t

namespace Accurate

theorem empty : Accurate isa img {} where
  width a := by simp
  terminator a := by simp
  link a := by simp
  call t := by simp

theorem mem_widths (h : g.Accurate isa img) :
    a ∈ g.widths ↔ a ∈ g.visited ∧ ∃ i, found? isa img a = some i := by
  rw [Std.TreeMap.mem_iff_isSome_getElem?, h.width, ← Option.isSome_iff_exists]
  split <;> simp_all

theorem width_eq_some (h : g.Accurate isa img) {w : Nat} : g.widths[a]? = some w ↔
    a ∈ g.visited ∧ ∃ i, found? isa img a = some i ∧ i.length = w := by
  rw [h.width]
  split <;> simp_all

theorem mem_links (h : g.Accurate isa img) {l : Link} :
    l ∈ g.links ↔ l.source ∈ g.visited ∧ l ∈ linksAt isa img l.source := by
  have hfilter : l ∈ g.links ↔ l ∈ g.links.toList.filter (·.source = l.source) := by simp
  rw [hfilter, h.link]
  split <;> simp_all

theorem undecoded (h : g.Accurate isa img) (hnew : pc ∉ g.visited)
    (hpc : found? isa img pc = none) : ((g.visit pc).terminate pc).Accurate isa img where
  width a := by
    by_cases ha : pc = a
    · subst ha
      simp [h.width, hnew, hpc]
    · simp [h.width, ha]
  terminator a := by
    by_cases ha : pc = a
    · subst ha
      simp [hpc]
    · simp [h.terminator, ha]
  link a := by
    by_cases ha : pc = a
    · subst ha
      simp [h.link, hnew, linksAt_of_undecoded hpc]
    · simp [h.link, ha]
  call := h.call

theorem decoded (h : g.Accurate isa img) (hnew : pc ∉ g.visited)
    (hpc : found? isa img pc = some i) : ((g.visit pc).add i).Accurate isa img where
  width a := by
    by_cases ha : pc = a
    · subst ha
      simp [pc_of_found? hpc, hpc]
    · simp [pc_of_found? hpc, h.width, ha]
  terminator a := by
    by_cases ha : pc = a
    · subst ha
      simp [pc_of_found? hpc, hpc, h.terminator, hnew]
    · simp [pc_of_found? hpc, h.terminator, ha]
  link a := by
    rw [toList_links_add, links_visit, List.filter_append, h.link]
    by_cases ha : pc = a
    · subst ha
      have hall : i.links.filter (·.source = pc) = i.links := by
        refine List.filter_eq_self.2 fun l hl => ?_
        simp [source_of_mem_links hl, pc_of_found? hpc]
      simp [hall, hnew, linksAt_of_found? hpc]
    · have hnone : i.links.filter (·.source = a) = [] := by
        refine List.filter_eq_nil_iff.2 fun l hl => ?_
        simp [source_of_mem_links hl, pc_of_found? hpc, ha]
      simp [hnone, ha]
  call t := by
    simp only [mem_calls_add, calls_visit, mem_links_add, links_visit, h.call, mem_callTargets]
    constructor
    · rintro (⟨l, hl, hcall⟩ | ⟨l, hl, hcall⟩)
      · exact ⟨l, .inr hl, hcall⟩
      · exact ⟨l, .inl hl, hcall⟩
    · rintro ⟨l, hl | hl, hcall⟩
      · exact .inr ⟨l, hl, hcall⟩
      · exact .inl ⟨l, hl, hcall⟩

end Accurate

/-! ## Turns of a search -/

/-- A search on its way: the addresses to look at, the graph so far, and how many instructions may
still be decoded. -/
structure Search where
  queue : List Address
  graph : CodeGraph
  left : Nat

namespace Search

def start (img : Image) (entries : List Address) (budget : Nat) : Search :=
  ⟨entries.filter img.isMapped, {}, budget⟩

/-- A turn takes the first address off the queue. -/
inductive Turn (isa : Isa) (img : Image) : Search → Search → Prop
  | again {pc queue g left} (h : pc ∈ g.visited) :
    Turn isa img ⟨pc :: queue, g, left + 1⟩ ⟨queue, g, left + 1⟩
  | undecoded {pc queue g left} (h : pc ∉ g.visited) (hpc : found? isa img pc = none) :
    Turn isa img ⟨pc :: queue, g, left + 1⟩ ⟨queue, (g.visit pc).terminate pc, left + 1⟩
  | decoded {pc queue g left i} (h : pc ∉ g.visited) (hpc : found? isa img pc = some i) :
    Turn isa img ⟨pc :: queue, g, left + 1⟩
      ⟨queue ++ pending img (g.visit pc) i, (g.visit pc).add i, left⟩

inductive Turns (isa : Isa) (img : Image) : Nat → Search → Search → Prop
  | refl (s : Search) : Turns isa img 0 s s
  | step {n s s' s''} : Turn isa img s s' → Turns isa img n s' s'' → Turns isa img (n + 1) s s''

/-- No turn is left. -/
def Over (s : Search) : Prop := s.queue = [] ∨ s.left = 0

variable {s s' s'' : Search} {m n budget : Nat}

theorem Turns.trans (h : Turns isa img m s s') (h' : Turns isa img n s' s'') :
    Turns isa img (m + n) s s'' := by
  induction h with
  | refl => simpa using h'
  | step hs _ ih =>
    rw [Nat.add_right_comm]
    exact .step hs (ih h')

theorem advance_cons (pc : Address) (queue : List Address) (g : CodeGraph) :
    advance isa img (pc :: queue) g =
      if pc ∈ g.visited then advance isa img queue g
      else match found? isa img pc with
        | none => advance isa img queue ((g.visit pc).terminate pc)
        | some i => (g.visit pc, some (i, queue)) := by
  rw [advance]
  simp only [Std.TreeSet.contains_iff_mem, found?]
  cases probe isa (img.code pc) pc (img.code pc).length <;> rfl

/-- Turns that decode nothing, then one that does unless the queue runs empty before. -/
theorem turns_advance (isa : Isa) (img : Image) (queue : List Address) (g : CodeGraph)
    (left : Nat) :
    ∃ n, Turns isa img n ⟨queue, g, left + 1⟩ (match advance isa img queue g with
      | (g', none) => ⟨[], g', left + 1⟩
      | (g', some (i, queue')) => ⟨queue' ++ pending img g' i, g'.add i, left⟩) := by
  induction queue generalizing g with
  | nil => exact ⟨0, .refl _⟩
  | cons pc queue ih =>
    rw [advance_cons]
    by_cases hold : pc ∈ g.visited
    · obtain ⟨n, hn⟩ := ih g
      rw [if_pos hold]
      exact ⟨n + 1, .step (.again hold) hn⟩
    · rw [if_neg hold]
      cases hpc : found? isa img pc with
      | none =>
        obtain ⟨n, hn⟩ := ih ((g.visit pc).terminate pc)
        exact ⟨n + 1, .step (.undecoded hold hpc) hn⟩
      | some i => exact ⟨1, .step (.decoded hold hpc) (.refl _)⟩

theorem turns_descend (isa : Isa) (img : Image) (left : Nat) (queue : List Address)
    (g : CodeGraph) :
    ∃ n s, Turns isa img n ⟨queue, g, left⟩ s ∧ s.Over ∧
      s.graph = descend isa img left queue g := by
  induction left generalizing queue g with
  | zero => exact ⟨0, _, .refl _, .inr rfl, rfl⟩
  | succ left ih =>
    obtain ⟨m, hm⟩ := turns_advance isa img queue g left
    rw [descend]
    generalize advance isa img queue g = r at hm ⊢
    obtain ⟨g', _ | ⟨i, queue'⟩⟩ := r
    · exact ⟨m, _, hm, .inl rfl, rfl⟩
    · obtain ⟨n, s, hn, hover, hs⟩ := ih (queue' ++ pending img g' i) (g'.add i)
      exact ⟨m + n, s, hm.trans hn, hover, hs⟩

/-! ## What a turn does -/

/-- An address that has been visited or will be. -/
def Knows (s : Search) (a : Address) : Prop := a ∈ s.graph.visited ∨ a ∈ s.queue

theorem mem_pending : t ∈ pending img g i ↔
    (∃ l ∈ i.links, l.target = t) ∧ img.isMapped t = true ∧ t ∉ g.visited := by
  simp [pending, ← Std.TreeSet.contains_iff_mem]

/-- A turn adds links of an address that it knew, and then knows their mapped targets. -/
theorem Turn.spreads (h : Turn isa img s s') : ∃ new : List Link,
    s'.graph.links.toList = s.graph.links.toList ++ new ∧
      (∀ l ∈ new, s.Knows l.source ∧ l ∈ linksAt isa img l.source) ∧
      ∀ a, s'.Knows a ↔ s.Knows a ∨ img.isMapped a = true ∧ ∃ l ∈ new, l.target = a := by
  cases h with
  | @again pc queue g left hold =>
    refine ⟨[], by simp, by simp, fun a => ?_⟩
    simp only [Knows, List.mem_cons, List.not_mem_nil, false_and, exists_false, and_false, or_false]
    constructor
    · tauto
    · rintro (h | rfl | h) <;> tauto
  | @undecoded pc queue g left hnew hpc =>
    refine ⟨[], by simp, by simp, fun a => ?_⟩
    simp only [Knows, visited_terminate, mem_visit, List.mem_cons, List.not_mem_nil, false_and,
      exists_false, and_false, or_false, eq_comm (a := pc)]
    tauto
  | @decoded pc queue g left i hnew hpc =>
    refine ⟨i.links, by simp, fun l hl => ?_, fun a => ?_⟩
    · have hsource : l.source = pc := (source_of_mem_links hl).trans (pc_of_found? hpc)
      rw [hsource, linksAt_of_found? hpc]
      exact ⟨.inr List.mem_cons_self, hl⟩
    · simp only [Knows, visited_add, mem_visit, List.mem_append, mem_pending, List.mem_cons,
        eq_comm (a := pc)]
      tauto

/-- Each turn takes one address off the queue and puts no more on it than it adds links. -/
theorem Turns.length_le (h : Turns isa img n s s') :
    n + s'.queue.length + s.graph.links.size ≤ s.queue.length + s'.graph.links.size := by
  induction h with
  | refl => omega
  | step ht _ ih =>
    cases ht with
    | again hold =>
      simp only [List.length_cons] at ih ⊢
      omega
    | undecoded hnew hpc =>
      simp only [List.length_cons, links_terminate, links_visit] at ih ⊢
      omega
    | @decoded pc queue g left i hnew hpc =>
      have hpending : (pending img (g.visit pc) i).length ≤ i.links.length :=
        (List.length_filter_le _ _).trans_eq (List.length_map _)
      simp only [List.length_cons, List.length_append, size_links_add, links_visit] at ih ⊢
      omega

end Search

/-! ## What can be reached -/

/-- The addresses hold the mapped entries and, with each address, whatever is mapped among the
targets of its links. -/
structure Closed (isa : Isa) (img : Image) (entries : List Address) (S : Set Address) : Prop where
  entry : ∀ e ∈ entries, img.isMapped e = true → e ∈ S
  link : ∀ a ∈ S, ∀ l ∈ linksAt isa img a, img.isMapped l.target = true → l.target ∈ S

namespace Search

variable {s s' : Search} {n budget : Nat}

/-- What the entries and the links lead to is known; what is known has been led to. -/
structure Covers (isa : Isa) (img : Image) (entries : List Address) (s : Search) : Prop where
  entry : ∀ e ∈ entries, img.isMapped e = true → s.Knows e
  link : ∀ l ∈ s.graph.links, img.isMapped l.target = true → s.Knows l.target
  named : ∀ a, s.Knows a → a ∈ entries ∨ ∃ l ∈ s.graph.links, l.target = a
  within : ∀ S, Closed isa img entries S → ∀ a, s.Knows a → a ∈ S

theorem covers_start : (start img entries budget).Covers isa img entries where
  entry e he hmapped := .inr (by simp [start, he, hmapped])
  link l hl := by simp [start] at hl
  named a ha := by
    rcases ha with ha | ha
    · simp [start] at ha
    · exact .inl (List.mem_of_mem_filter ha)
  within S hS a ha := by
    rcases ha with ha | ha
    · simp [start] at ha
    · obtain ⟨he, hmapped⟩ := List.mem_filter.1 ha
      exact hS.entry a he hmapped

theorem Covers.turn (h : s.Covers isa img entries) (ht : Turn isa img s s') :
    s'.Covers isa img entries := by
  obtain ⟨new, hlinks, hnew, hknows⟩ := ht.spreads
  have hmem : ∀ l, l ∈ s'.graph.links ↔ l ∈ s.graph.links ∨ l ∈ new := fun l => by
    rw [← Array.mem_toList_iff, hlinks, List.mem_append, Array.mem_toList_iff]
  refine ⟨fun e he hmapped => ?_, fun l hl hmapped => ?_, fun a ha => ?_, fun S hS a ha => ?_⟩
  · exact (hknows e).2 (.inl (h.entry e he hmapped))
  · rcases (hmem l).1 hl with hl | hl
    · exact (hknows _).2 (.inl (h.link l hl hmapped))
    · exact (hknows _).2 (.inr ⟨hmapped, l, hl, rfl⟩)
  · rcases (hknows a).1 ha with ha | ⟨-, l, hl, rfl⟩
    · refine (h.named a ha).imp_right ?_
      rintro ⟨l, hl, rfl⟩
      exact ⟨l, (hmem l).2 (.inl hl), rfl⟩
    · exact .inr ⟨l, (hmem l).2 (.inr hl), rfl⟩
  · rcases (hknows a).1 ha with ha | ⟨hmapped, l, hl, rfl⟩
    · exact h.within S hS a ha
    · obtain ⟨hsource, hl⟩ := hnew l hl
      exact hS.link _ (h.within S hS _ hsource) l hl hmapped

/-- The budget is spent on widths, and links come with them. -/
structure Counts (budget : Nat) (s : Search) : Prop where
  spent : s.left + s.graph.widths.size = budget
  links : s.graph.links.size ≤ 2 * s.graph.widths.size

theorem Counts.turn (h : s.Counts budget) (hacc : s.graph.Accurate isa img)
    (ht : Turn isa img s s') : s'.Counts budget := by
  obtain ⟨hspent, hlinks⟩ := h
  cases ht with
  | again hold => exact ⟨hspent, hlinks⟩
  | undecoded hnew hpc => exact ⟨hspent, hlinks⟩
  | @decoded pc queue g left i hnew hpc =>
    have hfresh : pc ∉ g.widths := fun hmem => hnew (hacc.mem_widths.1 hmem).1
    have hsize : ((g.visit pc).add i).widths.size = g.widths.size + 1 := by
      simp [add, pc_of_found? hpc, Std.TreeMap.size_insert, hfresh]
    have htwo := length_links_le hpc
    dsimp only at hspent hlinks
    constructor
    · dsimp only
      omega
    · simp only [size_links_add, links_visit, hsize]
      omega

/-- What holds of a search after any number of turns. -/
structure Sound (isa : Isa) (img : Image) (entries : List Address) (budget : Nat) (s : Search) :
    Prop where
  accurate : s.graph.Accurate isa img
  covers : s.Covers isa img entries
  counts : s.Counts budget

theorem sound_start : (start img entries budget).Sound isa img entries budget where
  accurate := .empty
  covers := covers_start
  counts := ⟨by simp [start], by simp [start]⟩

theorem Sound.turn (h : s.Sound isa img entries budget) (ht : Turn isa img s s') :
    s'.Sound isa img entries budget where
  accurate := by
    cases ht with
    | again hold => exact h.accurate
    | undecoded hnew hpc => exact h.accurate.undecoded hnew hpc
    | decoded hnew hpc => exact h.accurate.decoded hnew hpc
  covers := h.covers.turn ht
  counts := h.counts.turn h.accurate ht

theorem Turns.sound (h : Turns isa img n s s') (hs : s.Sound isa img entries budget) :
    s'.Sound isa img entries budget := by
  induction h with
  | refl => exact hs
  | step ht _ ih => exact ih (hs.turn ht)

theorem exists_over (isa : Isa) (img : Image) (entries : List Address) (budget : Nat) :
    ∃ n s, Turns isa img n (start img entries budget) s ∧ s.Over ∧
      s.graph = explore isa img entries budget ∧ s.Sound isa img entries budget := by
  obtain ⟨n, s, hturns, hover, hs⟩ :=
    turns_descend isa img budget (entries.filter img.isMapped) {}
  exact ⟨n, s, hturns, hover, hs, hturns.sound sound_start⟩

end Search

/-! ## The graph of a search -/

section Explore

variable {budget : Nat}

theorem accurate_explore (isa : Isa) (img : Image) (entries : List Address) (budget : Nat) :
    (explore isa img entries budget).Accurate isa img := by
  obtain ⟨n, s, -, -, hs, hsound⟩ := Search.exists_over isa img entries budget
  exact hs ▸ hsound.accurate

theorem named_of_visited (h : a ∈ (explore isa img entries budget).visited) :
    a ∈ entries ∨ ∃ l ∈ (explore isa img entries budget).links, l.target = a := by
  obtain ⟨n, s, -, -, hs, hsound⟩ := Search.exists_over isa img entries budget
  rw [← hs] at h ⊢
  exact hsound.covers.named a (.inl h)

/-- Whatever the budget, nothing else is visited than what can be reached. -/
theorem visited_subset {S : Set Address} (hS : Closed isa img entries S) :
    {a | a ∈ (explore isa img entries budget).visited} ⊆ S := by
  obtain ⟨n, s, -, -, hs, hsound⟩ := Search.exists_over isa img entries budget
  intro a ha
  rw [← hs] at ha
  exact hsound.covers.within S hS a (.inl ha)

/-- A search with some of its budget left ends with an empty queue. -/
theorem exists_queue_empty (h : (explore isa img entries budget).widths.size < budget) :
    ∃ n s, Search.Turns isa img n (.start img entries budget) s ∧ s.queue = [] ∧
      s.graph = explore isa img entries budget ∧ s.Sound isa img entries budget := by
  obtain ⟨n, s, hturns, hover, hs, hsound⟩ := Search.exists_over isa img entries budget
  refine ⟨n, s, hturns, hover.resolve_right fun hleft => ?_, hs, hsound⟩
  have hspent := hsound.counts.spent
  rw [hs] at hspent
  omega

theorem closed_explore (h : (explore isa img entries budget).widths.size < budget) :
    Closed isa img entries {a | a ∈ (explore isa img entries budget).visited} := by
  obtain ⟨n, s, -, hqueue, hs, hsound⟩ := exists_queue_empty h
  rw [← hs]
  -- With nothing in the queue, whatever is known has been visited.
  have hknows : ∀ a, s.Knows a → a ∈ s.graph.visited := by
    rintro a (ha | ha)
    · exact ha
    · rw [hqueue] at ha
      cases ha
  refine ⟨fun e he hmapped => hknows e (hsound.covers.entry e he hmapped), ?_⟩
  intro a ha l hl hmapped
  have hsource := source_of_mem_linksAt hl
  have hlink : l ∈ s.graph.links := hsound.accurate.mem_links.2 (by rw [hsource]; exact ⟨ha, hl⟩)
  exact hknows _ (hsound.covers.link l hlink hmapped)

theorem isLeast_visited (h : (explore isa img entries budget).widths.size < budget) :
    IsLeast {S | Closed isa img entries S} {a | a ∈ (explore isa img entries budget).visited} :=
  ⟨closed_explore h, fun _ hS => visited_subset hS⟩

end Explore

theorem size_le_addresses (widths : Std.TreeMap Address Nat) : widths.size ≤ 2 ^ 32 := by
  have hnodup : widths.keys.Nodup := Std.TreeMap.nodup_keys
  have hcard : Fintype.card Address = 2 ^ 32 :=
    (Fintype.card_congr BitVec.equivFin.toEquiv).trans (Fintype.card_fin _)
  rw [← Std.TreeMap.length_keys, ← hcard]
  exact hnodup.length_le_card

/-- The address space bounds the turns, whatever the budget. -/
theorem Search.Turns.bounded {n budget : Nat} {s : Search}
    (h : Turns isa img n (start img entries budget) s) : n ≤ entries.length + 2 ^ 33 := by
  -- An entry or a link pays for each turn, and an address has two links at most.
  have hturns := h.length_le
  have hlinks := (h.sound sound_start).counts.links
  have hsize := size_le_addresses s.graph.widths
  have hqueue : (start img entries budget).queue.length ≤ entries.length :=
    List.length_filter_le _ _
  have hempty : (start img entries budget).graph.links.size = 0 := rfl
  omega

/-! ## The order of the entries -/

section Order

variable {entries' : List Address} {budget : Nat}

theorem Closed.congr {S : Set Address} (hsame : ∀ e, e ∈ entries' ↔ e ∈ entries)
    (h : Closed isa img entries S) : Closed isa img entries' S :=
  ⟨fun e he => h.entry e ((hsame e).1 he), h.link⟩

/-- A search from the same entries decodes no more. -/
theorem size_widths_le_of_same (hsame : ∀ e, e ∈ entries' ↔ e ∈ entries)
    (h : (explore isa img entries budget).widths.size < budget) :
    (explore isa img entries' budget).widths.size ≤
      (explore isa img entries budget).widths.size := by
  have hkeys : (explore isa img entries' budget).widths.keys ⊆
      (explore isa img entries budget).widths.keys := by
    intro a ha
    rw [Std.TreeMap.mem_keys, (accurate_explore ..).mem_widths] at ha ⊢
    exact ⟨visited_subset ((closed_explore h).congr hsame) ha.1, ha.2⟩
  rw [← Std.TreeMap.length_keys, ← Std.TreeMap.length_keys]
  exact (Std.TreeMap.nodup_keys.subperm hkeys).length_le

theorem visited_iff (hsame : ∀ e, e ∈ entries' ↔ e ∈ entries)
    (h : (explore isa img entries budget).widths.size < budget) :
    a ∈ (explore isa img entries' budget).visited ↔
      a ∈ (explore isa img entries budget).visited := by
  have h' := (size_widths_le_of_same hsame h).trans_lt h
  -- Each of the two sets is closed, and each is inside whatever is closed.
  constructor
  · exact fun ha => visited_subset ((closed_explore h).congr hsame) ha
  · exact fun ha => visited_subset ((closed_explore h').congr fun e => (hsame e).symm) ha

end Order

/-- Accurate graphs with the same visited addresses differ in the order of their links only. -/
theorem Accurate.equiv {g' : CodeGraph} (h : g.Accurate isa img) (h' : g'.Accurate isa img)
    (hvisited : ∀ a, a ∈ g'.visited ↔ a ∈ g.visited) :
    g'.widths.Equiv g.widths ∧ g'.terminators.Equiv g.terminators ∧ g'.calls.Equiv g.calls := by
  have hlinks : ∀ l, l ∈ g'.links ↔ l ∈ g.links := fun l => by
    rw [h.mem_links, h'.mem_links, hvisited]
  refine ⟨.of_forall_constGet?_eq fun a => ?_, .of_forall_mem_iff fun a => ?_,
    .of_forall_mem_iff fun t => ?_⟩
  · simp only [h.width, h'.width, hvisited]
  · rw [h.terminator, h'.terminator, hvisited]
  · simp only [h.call, h'.call, hlinks]

/-- A search with some of its budget left has ended by itself, in a number of turns that the
address space bounds, and has found exactly what can be reached from the entries: its visited
addresses are the least set that the mapped entries and the mapped targets of links keep inside,
and its widths, links and calls are those of the instructions that decode there. Only the order of
the links depends on the order of the entries. -/
theorem explore_finds_reachable (isa : Isa) (img : Image) (entries : List Address) (budget : Nat)
    (hbudget : (explore isa img entries budget).widths.size < budget) :
    let g := explore isa img entries budget
    (∃ n s, Search.Turns isa img n (.start img entries budget) s ∧ s.queue = [] ∧ s.graph = g) ∧
    (∀ n s, Search.Turns isa img n (.start img entries budget) s → n ≤ entries.length + 2 ^ 33) ∧
    IsLeast {S | Closed isa img entries S} {a | a ∈ g.visited} ∧
    (∀ a, g.widths[a]? = if a ∈ g.visited then (found? isa img a).map (·.length) else none) ∧
    (∀ a ∈ g.visited, a ∉ g.widths → a ∈ g.terminators) ∧
    (∀ a, g.links.toList.filter (·.source = a) =
      if a ∈ g.visited then linksAt isa img a else []) ∧
    (∀ t, t ∈ g.calls ↔ ∃ l ∈ g.links, l.kind = .call ∧ l.target = t) ∧
    ∀ entries', (∀ e, e ∈ entries' ↔ e ∈ entries) →
      let g' := explore isa img entries' budget
      g'.visited.Equiv g.visited ∧ g'.widths.Equiv g.widths ∧
        g'.terminators.Equiv g.terminators ∧ g'.calls.Equiv g.calls := by
  intro g
  have hacc : g.Accurate isa img := accurate_explore isa img entries budget
  obtain ⟨n, s, hturns, hqueue, hs, -⟩ := exists_queue_empty hbudget
  refine ⟨⟨n, s, hturns, hqueue, hs⟩, fun _ _ h => h.bounded, isLeast_visited hbudget, hacc.width,
    fun a ha hw => ?_, hacc.link, hacc.call, fun entries' hsame => ?_⟩
  · refine (hacc.terminator a).2 ⟨ha, fun i hi => ?_⟩
    exact absurd (hacc.mem_widths.2 ⟨ha, i, hi⟩) hw
  · have hvisited := fun a => visited_iff (a := a) hsame hbudget
    exact ⟨.of_forall_mem_iff hvisited, hacc.equiv (accurate_explore ..) hvisited⟩

/-- A jump over two bytes to a call of the first address, then a return; a last byte that does not
decode. -/
def jumpAndCall : Image :=
  [{ base := 0, bytes := #[0x3C, 0x02, 0x00, 0x00, 0x5C, 0xFE, 0x00, 0x90] }]

theorem explore_finds_reachable_call :
    (explore .v16 jumpAndCall [7, 0, 7, 0x100] 4).widths.size < 4 ∧
      IsLeast {S | Closed .v16 jumpAndCall [7, 0, 7, 0x100] S} {0, 4, 6, 7} ∧
      (explore .v16 jumpAndCall [0x100, 0, 7] 4).visited.Equiv
        (explore .v16 jumpAndCall [7, 0, 7, 0x100] 4).visited := by
  have hbudget : (explore .v16 jumpAndCall [7, 0, 7, 0x100] 4).widths.size < 4 := by decide +kernel
  obtain ⟨-, -, hleast, -, -, -, -, horder⟩ :=
    explore_finds_reachable .v16 jumpAndCall [7, 0, 7, 0x100] 4 hbudget
  have hlist : (explore .v16 jumpAndCall [7, 0, 7, 0x100] 4).visited.toList = [0, 4, 6, 7] := by
    decide +kernel
  have hvisited : {a | a ∈ (explore .v16 jumpAndCall [7, 0, 7, 0x100] 4).visited} =
      ({0, 4, 6, 7} : Set Address) := by
    ext a
    rw [Set.mem_ofPred_eq, ← Std.TreeSet.mem_toList, hlist]
    simp
  rw [hvisited] at hleast
  refine ⟨hbudget, hleast, (horder [0x100, 0, 7] fun e => ?_).1⟩
  simp only [List.mem_cons, List.not_mem_nil, or_false]
  grind

end CodeGraph

end Tricore
