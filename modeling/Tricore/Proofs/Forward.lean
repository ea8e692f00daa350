import Mathlib
import Tricore.Proofs.Traps

/-!
# Code that branches forward

Code is `Forward` if every label that a statement may continue at is marked once, further down. Such
code executes each statement at most once, so it ends in as many steps as it has statements, and it
finds every label that it looks for (`Forward.runLogged_ends`). `Machine.runLogged` is a run that
keeps a log of the positions it executes.
-/

namespace Tricore

/-- The trap of a branch to a label that the instruction does not mark. -/
def Trap.outside (pc : Address) : Trap :=
  .unsupported pc "branch to a label outside the instruction"

/-! ## What traps -/

theorem Intrinsic.unsupported_ne_outside (i : Intrinsic) (pc a : Address) :
    Trap.unsupported pc i.name ≠ .outside a := by
  have hname : i.name ≠ "branch to a label outside the instruction" := by cases i <;> decide
  exact fun h => hname (Trap.unsupported.inj h).2

/-- What one statement raises is no branch to the outside, since whether the code marks a label is
not seen by one statement. -/
theorem Trap.Raised.ne_outside {β : Type} [Bus β] {Q : β → Prop} {pc here : Address} {t : Trap}
    (h : t.Raised Q pc here) (a : Address) : t ≠ .outside a := by
  cases h with
  | unmodeled i => exact i.unsupported_ne_outside pc a
  | undefined => simp [Trap.outside]
  | _ =>
    intro h
    cases h

theorem Stmt.ne_outside_of_exec {β : Type} [Bus β] {m : Machine β} {t : Trap} {pc : Address}
    {stmt : Stmt} (h : (stmt.exec pc m).2 = .trap t) (a : Address) : t ≠ .outside a := by
  have hlast : Lasting fun _ : β => True := fun _ _ _ _ _ => trivial
  exact (Stmt.raised_of_exec hlast trivial h).ne_outside a

/-! ## Labels -/

/-- The labels that a statement may continue at. -/
def Stmt.targets : Stmt → List Label
  | branch _ yes no => [yes, no]
  | goto l => [l]
  | _ => []

theorem Stmt.mem_targets_of_exec {β : Type} [Bus β] {m : Machine β} {pc : Address} {stmt : Stmt}
    {l : Label} (h : (stmt.exec pc m).2 = .goto l) : l ∈ stmt.targets := by
  cases stmt with
  | goto => cases h; simp [targets]
  | branch cond yes no =>
    simp only [exec] at h
    split at h
    · cases h
      split <;> simp [targets]
    · cases h
  | _ => exact absurd h (exec_straight rfl l)

/-- Every label that a statement may continue at is marked once, and further down. -/
def Forward (code : List Stmt) : Prop :=
  ∀ (k : Nat) (stmt : Stmt), code[k]? = some stmt → ∀ l ∈ stmt.targets,
    ∃ j, k < j ∧ ∀ j' : Nat, code[j']? = some (.mark l) ↔ j' = j

theorem fromMark?_eq_none {l : Label} {code : List Stmt} (h : .mark l ∉ code) :
    fromMark? l code = none := by
  induction code with
  | nil => rfl
  | cons stmt code ih =>
    rw [List.mem_cons, not_or] at h
    unfold fromMark?
    rw [ih h.2]
    cases stmt with
    | mark l' =>
      refine if_neg ?_
      rintro rfl
      exact h.1 rfl
    | _ => rfl

/-- A label is found at its last mark. -/
theorem fromMark?_cons_self {l : Label} {code : List Stmt} (h : .mark l ∉ code) :
    fromMark? l (.mark l :: code) = some (.mark l :: code) := by
  unfold fromMark?
  rw [fromMark?_eq_none h]
  exact if_pos rfl

/-- A label is found where it is marked once. -/
theorem fromMark?_of_marked_once {l : Label} {code : List Stmt} {j : Nat}
    (h : ∀ j' : Nat, code[j']? = some (.mark l) ↔ j' = j) : fromMark? l code = some (code.drop j) := by
  induction code generalizing j with
  | nil => exact absurd ((h j).2 rfl) (by simp)
  | cons stmt code ih =>
    cases j with
    | zero =>
      have hmark : stmt = .mark l := by simpa using (h 0).2 rfl
      have hno : .mark l ∉ code := by
        intro hmem
        obtain ⟨j', hj'⟩ := List.mem_iff_getElem?.1 hmem
        exact Nat.succ_ne_zero j' ((h (j' + 1)).1 hj')
      rw [hmark]
      exact fromMark?_cons_self hno
    | succ j =>
      have hrest : fromMark? l code = some (code.drop j) := by
        refine ih fun j' => (h (j' + 1)).trans ?_
        omega
      unfold fromMark?
      rw [hrest]
      rfl

/-! ## Runs -/

namespace Machine

variable {β : Type} [Bus β]

/-- A run of `rest`, a tail of `code`, with the positions in `code` of the statements that it
executes. -/
def runLogged (pc : Address) (code : List Stmt) :
    Nat → List Stmt → Machine β → (Machine β × Outcome) × List Nat
  | _, [], m => ((m, .done), [])
  | 0, _ :: _, m => ((m, .unfinished), [])
  | fuel + 1, stmt :: rest, m =>
    let position := code.length - (rest.length + 1)
    match stmt.exec pc m with
    | (m, .next) =>
      let (result, log) := runLogged pc code fuel rest m
      (result, position :: log)
    | (m, .trap t) => ((m, .trapped t), [position])
    | (m, .goto l) =>
      match fromMark? l code with
      | some rest =>
        let (result, log) := runLogged pc code fuel rest m
        (result, position :: log)
      | none => ((m, .trapped (.outside pc)), [position])

/-- Execution of the statements of an instruction, with the positions of those it executes. -/
def executeLogged (m : Machine β) (pc : Address) (steps : Nat) (code : List Stmt) :
    (Machine β × Outcome) × List Nat :=
  (m.withCore fun c => { c with temps := [] }).runLogged pc code steps code

/-- The log does not change the run. -/
theorem runLogged_fst (pc : Address) (code : List Stmt) (fuel : Nat) (rest : List Stmt)
    (m : Machine β) : (runLogged pc code fuel rest m).1 = run pc code fuel rest m := by
  fun_induction run pc code fuel rest m with
  | case1 => simp [runLogged]
  | case2 => rfl
  | case3 fuel stmt rest m m' h ih => simp only [runLogged, h]; exact ih
  | case4 fuel stmt rest m m' t h => simp only [runLogged, h]
  | case5 fuel stmt rest m m' l h rest' hl ih => simp only [runLogged, h, hl]; exact ih
  | case6 fuel stmt rest m m' l h hl => simp only [runLogged, h, hl]; rfl

theorem executeLogged_fst (m : Machine β) (pc : Address) (steps : Nat) (code : List Stmt) :
    (m.executeLogged pc steps code).1 = m.execute pc steps code :=
  runLogged_fst pc code steps code _

/-- What comes of a run from position `k` of the code on: it ends, inside the code, and each
statement is executed at most once, in order. -/
structure Ends (code : List Stmt) (k : Nat) (r : (Machine β × Outcome) × List Nat) : Prop where
  finished : r.1.2 ≠ .unfinished
  inside : ∀ a, r.1.2 ≠ .trapped (.outside a)
  once : r.2.Pairwise (· < ·)
  within : ∀ j ∈ r.2, k ≤ j ∧ j < code.length

omit [Bus β] in
/-- One more statement, before a run from further down. -/
theorem Ends.cons {code : List Stmt} {k j : Nat} {r : (Machine β × Outcome) × List Nat}
    (h : Ends code j r) (hkj : k < j) (hk : k < code.length) :
    Ends code k (r.1, k :: r.2) where
  finished := h.finished
  inside := h.inside
  once := by
    refine List.pairwise_cons.2 ⟨fun j' hj' => ?_, h.once⟩
    have := (h.within j' hj').1
    omega
  within j' hj' := by
    rcases List.mem_cons.1 hj' with rfl | hj'
    · exact ⟨Nat.le_refl _, hk⟩
    · have := h.within j' hj'
      omega

end Machine

namespace Forward

variable {β : Type} [Bus β] {code : List Stmt}

/-- One statement of forward code traps, or control moves further down. -/
theorem runLogged_step (h : Forward code) {k : Nat} (hk : k < code.length) (pc : Address)
    (m : Machine β) :
    (∃ (m' : Machine β) (t : Trap), (∀ a, t ≠ .outside a) ∧
      ∀ fuel, m.runLogged pc code (fuel + 1) (code.drop k) = ((m', .trapped t), [k])) ∨
    ∃ (m' : Machine β) (j : Nat), k < j ∧ j ≤ code.length ∧
      ∀ fuel, m.runLogged pc code (fuel + 1) (code.drop k) =
        let (result, log) := m'.runLogged pc code fuel (code.drop j)
        (result, k :: log) := by
  rw [List.drop_eq_getElem_cons hk]
  have hposition : code.length - ((code.drop (k + 1)).length + 1) = k := by
    rw [List.length_drop]; omega
  have hat : code[k]? = some code[k] := List.getElem?_eq_getElem hk
  generalize code[k] = stmt at hat ⊢
  simp only [Machine.runLogged, hposition]
  rcases hx : stmt.exec pc m with ⟨m', _ | l | t⟩
  · exact .inr ⟨m', k + 1, by omega, by omega, fun _ => rfl⟩
  · -- The mark of the label is where the run goes on.
    have hl : l ∈ stmt.targets := Stmt.mem_targets_of_exec (congrArg Prod.snd hx)
    obtain ⟨j, hkj, hj⟩ := h k stmt hat l hl
    have hlt : j < code.length := (List.getElem?_eq_some_iff.1 ((hj j).2 rfl)).1
    refine .inr ⟨m', j, hkj, by omega, fun _ => ?_⟩
    simp only [fromMark?_of_marked_once hj]
  · exact .inl ⟨m', t, Stmt.ne_outside_of_exec (congrArg Prod.snd hx), fun _ => rfl⟩

/-- A run of forward code from position `k` on ends, in no more steps than there are statements
left. -/
theorem runLogged_ends (h : Forward code) (pc : Address) {k : Nat} (hk : k ≤ code.length)
    (m : Machine β) :
    ∃ r, Machine.Ends code k r ∧
      ∀ fuel, code.length - k ≤ fuel → m.runLogged pc code fuel (code.drop k) = r := by
  induction hn : code.length - k using Nat.strong_induction_on generalizing k m with
  | _ n ih =>
    rcases Nat.eq_or_lt_of_le hk with rfl | hlt
    · refine ⟨((m, .done), []), ⟨by simp, by simp, .nil, by simp⟩, fun fuel _ => ?_⟩
      simp [Machine.runLogged]
    · rcases h.runLogged_step hlt pc m with ⟨m', t, ht, hstep⟩ | ⟨m', j, hkj, hj, hstep⟩
      · refine ⟨((m', .trapped t), [k]), ⟨by simp, by simpa using ht, by simp, ?_⟩, ?_⟩
        · simpa using hlt
        · intro fuel hfuel
          obtain ⟨fuel, rfl⟩ : ∃ f, fuel = f + 1 := ⟨fuel - 1, by omega⟩
          exact hstep fuel
      · obtain ⟨r, hends, hr⟩ := ih (code.length - j) (by omega) hj m' rfl
        refine ⟨(r.1, k :: r.2), hends.cons hkj hlt, fun fuel hfuel => ?_⟩
        obtain ⟨fuel, rfl⟩ : ∃ f, fuel = f + 1 := ⟨fuel - 1, by omega⟩
        rw [hstep fuel, hr fuel (by omega)]

/-- Executing forward code ends, in no more steps than it has statements. -/
theorem executeLogged_ends (h : Forward code) (pc : Address) (m : Machine β) :
    ∃ r, Machine.Ends code 0 r ∧
      ∀ steps, code.length ≤ steps → m.executeLogged pc steps code = r :=
  h.runLogged_ends pc (Nat.zero_le _) _

theorem execute_finished (h : Forward code) (pc : Address) (m : Machine β) :
    (m.execute pc code.length code).2 ≠ .unfinished := by
  obtain ⟨r, hends, hr⟩ := h.executeLogged_ends pc m
  rw [← Machine.executeLogged_fst, hr code.length (Nat.le_refl _)]
  exact hends.finished

end Forward

end Tricore
