import Mathlib
import Tricore.Proofs.Labelling

/-!
# Labels of a trace

A host works on a trace by binding, marking and taking labels, clearing the statements, and lifting
instructions (`Trace.Op`), in any order. However it does, labels do not clash
(`labels_never_clash`): all that have been taken are different, an address keeps its label and shares
it with no other, and the statements of an instruction mark exactly the labels that it takes.

Labels are taken in order. `Trace.Moves` says so of two traces and the labels taken between them; it
holds of every operation, and so of any number of them.
-/

namespace Tricore

namespace Trace

/-- What a host does to a trace. -/
inductive Op where
  | bind (addr : Address)
  | mark (addr : Address)
  | newLabel
  | clear
  /-- Lift an instruction, decoded or not; what a lift that fails leaves counts as well. -/
  | lift (i : Instruction)

namespace Op

def apply (t : Trace) : Op → Trace
  | bind addr => (t.bind addr).2
  | mark addr => t.mark addr
  | newLabel => t.newLabel.2
  | clear => t.clear
  | lift i => (i.liftInto t).2

/-- The labels that the operation takes, in order. -/
def taken (t : Trace) : Op → List Label
  | bind addr | mark addr => if (t.labelAt? addr).isSome then [] else [t.newLabel.1]
  | newLabel => [t.newLabel.1]
  | clear => []
  | lift i => i.taken t

end Op

def run (t : Trace) (ops : List Op) : Trace := ops.foldl Op.apply t

/-- The labels that the operations take, in order. -/
def taken (t : Trace) : List Op → List Label
  | [] => []
  | op :: ops => op.taken t ++ (op.apply t).taken ops

/-- From one trace to another with some labels taken: these are the next ones in order, addresses keep
their labels, and bound labels stay in order. -/
structure Moves (t t' : Trace) (labels : List Label) : Prop where
  le : t.nextLabel ≤ t'.nextLabel
  labels : labels = Label.between t.nextLabel t'.nextLabel
  keeps : ∀ a l, t.labelAt? a = some l → t'.labelAt? a = some l
  wellBound : t.WellBound → t'.WellBound

namespace Moves

variable {t t' t'' : Trace} {ls ls' : List Label}

theorem same (hn : t'.nextLabel = t.nextLabel) (hb : t'.bound = t.bound) : Moves t t' [] where
  le := Nat.le_of_eq hn.symm
  labels := by rw [hn, Label.between_self]
  keeps a l h := by rwa [labelAt?, hb]
  wellBound h := h.mono hb (Nat.le_of_eq hn.symm)

theorem trans (h : Moves t t' ls) (h' : Moves t' t'' ls') : Moves t t'' (ls ++ ls') where
  le := Nat.le_trans h.le h'.le
  labels := by rw [h.labels, h'.labels, Label.between_append h.le h'.le]
  keeps a l hl := h'.keeps a l (h.keeps a l hl)
  wellBound hw := h'.wellBound (h.wellBound hw)

theorem newLabel (t : Trace) : Moves t t.newLabel.2 [t.newLabel.1] where
  le := Nat.le_succ _
  labels := by simp [Trace.newLabel, Label.between]
  keeps a l h := h
  wellBound h := h.mono rfl (Nat.le_succ _)

theorem bind (t : Trace) (addr : Address) :
    Moves t (t.bind addr).2 (if (t.labelAt? addr).isSome then [] else [t.newLabel.1]) := by
  cases hl : t.labelAt? addr with
  | some l =>
    have hsame : (t.bind addr).2 = t := by simp [Trace.bind, hl]
    rw [hsame]
    exact .same rfl rfl
  | none =>
    have hnew : (t.bind addr).2 =
        { t with nextLabel := t.nextLabel + 1, bound := (addr, t.newLabel.1) :: t.bound } := by
      simp [Trace.bind, hl, Trace.newLabel]
    refine ⟨by simp [hnew], by simp [hnew, Trace.newLabel, Label.between], fun a l ha => ?_,
      fun h => h.bind addr⟩
    -- An address that has a label is not the one that is bound now.
    have hne : (a == addr) = false := by
      rw [beq_eq_false_iff_ne]
      rintro rfl
      rw [hl] at ha
      cases ha
    rw [hnew, labelAt?, List.lookup_cons, hne]
    exact ha

theorem apply (t : Trace) (op : Op) : Moves t (op.apply t) (op.taken t) := by
  cases op with
  | bind addr => exact .bind t addr
  | mark addr =>
    have hmark : Moves (t.bind addr).2 (t.mark addr) [] := .same rfl rfl
    have h := (Moves.bind t addr).trans hmark
    rwa [List.append_nil] at h
  | newLabel => exact .newLabel t
  | clear => exact .same rfl rfl
  | lift i =>
    obtain ⟨hle, hbound⟩ := i.liftInto_keeps t
    exact ⟨hle, rfl, fun a l h => by rwa [labelAt?, Op.apply, hbound], fun h => h.mono hbound hle⟩

theorem run (t : Trace) (ops : List Op) : Moves t (t.run ops) (t.taken ops) := by
  induction ops generalizing t with
  | nil => exact .same rfl rfl
  | cons op ops ih => exact (apply t op).trans (ih (op.apply t))

end Moves

theorem WellBound.lt_of_labelAt? {t : Trace} (h : t.WellBound) {a : Address} {l : Label}
    (hl : t.labelAt? a = some l) : l.id < t.nextLabel := by
  obtain ⟨first, rest, hsplit, -⟩ := List.lookup_eq_some_iff.1 hl
  exact h.taken (a, l) (by simp [hsplit])

/-- The label that binding gives is the label of the address. -/
theorem labelAt?_bind (t : Trace) (addr : Address) :
    (t.bind addr).2.labelAt? addr = some (t.bind addr).1 := by
  unfold bind
  cases hl : t.labelAt? addr with
  | some l => exact hl
  | none => simp [newLabel, labelAt?]

end Trace

/-- Labels of one trace never clash, whatever has been done to it. All labels that were taken are
different and below the next one, and there are as many as that one's number. An address keeps the
label it was bound to, which is one of these, and no other address has it. An instruction that is
lifted marks each label that it takes once and marks no other; it continues only at these, or at the
label of the address after it or of a target among its operands, which is its direct target if it was
decoded. -/
theorem labels_never_clash (ops : List Trace.Op) :
    let t := Trace.empty.run ops
    let taken := Trace.empty.taken ops
    (taken.Nodup ∧ (∀ l ∈ taken, l.id < t.nextLabel) ∧ t.nextLabel = taken.length) ∧
    (∀ a, (t.bind a).2.labelAt? a = some (t.bind a).1) ∧
    (∀ earlier later, ops = earlier ++ later → ∀ a l,
      (Trace.empty.run earlier).labelAt? a = some l → t.labelAt? a = some l) ∧
    (∀ a l, t.labelAt? a = some l → l ∈ taken ∧ ∀ b, t.labelAt? b = some l → b = a) ∧
    ∀ i t', i.lift t = .ok t' → ∃ code, t'.stmts = t.stmts ++ code ∧
      (∀ l, (code.filterMap Stmt.mark?).count l = if l ∈ i.taken t then 1 else 0) ∧
      ∀ stmt ∈ code, ∀ l ∈ stmt.targets,
        l ∈ i.taken t ∨ t.labelAt? i.next = some l ∨
          ∃ a, .target a ∈ i.operands ∧ t.labelAt? a = some l ∧
            ∀ isa bytes addr, Instruction.decode isa bytes addr = .ok i → i.target? = some a := by
  intro t taken
  have hmoves : Trace.empty.Moves t taken := .run .empty ops
  have htaken : taken = Label.between 0 t.nextLabel := hmoves.labels
  have hbound : t.WellBound := hmoves.wellBound (Trace.Built.empty).wellBound
  refine ⟨⟨?_, ?_, ?_⟩, t.labelAt?_bind, ?_, ?_, ?_⟩
  · rw [htaken]
    exact Label.nodup_between
  · intro l hl
    rw [htaken, Label.mem_between] at hl
    exact hl.2
  · simp [htaken, Label.between]
  · rintro earlier later hops a l hl
    have hsplit : t = (Trace.empty.run earlier).run later := by
      simp only [t, hops, Trace.run, List.foldl_append]
    rw [hsplit]
    exact (Trace.Moves.run _ later).keeps a l hl
  · refine fun a l hl => ⟨?_, fun b hb => ?_⟩
    · rw [htaken, Label.mem_between]
      exact ⟨Nat.zero_le _, hbound.lt_of_labelAt? hl⟩
    · have hboth := (hbound.leads.bound a l hl).symm.trans (hbound.leads.bound b l hb)
      exact (Option.some.inj hboth).symm
  · intro i t' hlift
    obtain ⟨code, hcode, hmarks, htargets⟩ := Instruction.marks_of_lift hlift
    refine ⟨code, hcode, fun l => ?_, fun stmt hs l hl => ?_⟩
    · rw [hmarks]
      exact List.Nodup.count Label.nodup_between
    · rcases htargets stmt hs l hl with hmem | ⟨a, rfl | hop, hlabel⟩
      · exact .inl hmem
      · exact .inr (.inl hlabel)
      · exact .inr (.inr ⟨a, hop, hlabel, fun _ _ _ hd => Instruction.target?_of_mem hd hop⟩)

/-- `jz d15, 0x108` after it was lifted once already, where its target is bound. -/
theorem labels_never_clash_jz :
    ∃ i t', Instruction.decode .v16 [0x6E, 0x04] 0x100 = .ok i ∧
      Trace.empty.taken [.bind 0x108, .lift i, .clear] = [⟨0⟩, ⟨1⟩] ∧
      (Trace.empty.run [.bind 0x108, .lift i, .clear]).labelAt? 0x108 = some ⟨0⟩ ∧
      i.lift (Trace.empty.run [.bind 0x108, .lift i, .clear]) = .ok t' ∧
      ∀ l, (t'.stmts.filterMap Stmt.mark?).count l = if l = ⟨2⟩ then 1 else 0 := by
  obtain ⟨i, t', hd, htaken, hlift, hcleared, hnew⟩ :
      ∃ i t', Instruction.decode .v16 [0x6E, 0x04] 0x100 = .ok i ∧
        Trace.empty.taken [.bind 0x108, .lift i, .clear] = [⟨0⟩, ⟨1⟩] ∧
        i.lift (Trace.empty.run [.bind 0x108, .lift i, .clear]) = .ok t' ∧
        (Trace.empty.run [.bind 0x108, .lift i, .clear]).stmts = [] ∧
        i.taken (Trace.empty.run [.bind 0x108, .lift i, .clear]) = [⟨2⟩] :=
    ⟨_, _, rfl, by decide +kernel, rfl, rfl, by decide +kernel⟩
  obtain ⟨-, -, hkeeps, -, hmarks⟩ := labels_never_clash [.bind 0x108, .lift i, .clear]
  obtain ⟨code, hcode, hcount, -⟩ := hmarks i t' hlift
  refine ⟨i, t', hd, htaken, hkeeps [.bind 0x108] _ rfl 0x108 ⟨0⟩ rfl, hlift, fun l => ?_⟩
  rw [hcode, hcleared, List.nil_append, hcount l, hnew]
  simp only [List.mem_singleton]

end Tricore
