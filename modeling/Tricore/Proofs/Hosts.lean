import Mathlib
import Tricore.Memory.Window
import Tricore.Proofs.Layout

/-!
# Lifting into a host

A host is a trace that has bound labels to addresses. In it, reaching a bound label ends an
instruction at the address of the label (`Machine.runIn`). What an instruction does there is what it
does alone, up to the program counter of one that falls through (`host_labels_keep_meaning`): alone,
it leaves the program counter to whoever moved it past the instruction, while the host's label says
where the next instruction is.

`Layout.meaning` is what each layout does, said without labels; `Layout.runIn_code` shows that the
code of a layout does it in any host. `Trace.Built` are the traces that a host can have.
-/

namespace Tricore

/-! ## Hosts -/

namespace Trace

/-- The traces that can be built: statements are edited at will, labels are taken, addresses bound,
and decoded instructions lifted. To mark an address is to bind it and then append a statement, and to
clear a trace is to drop its statements. -/
inductive Built : Trace → Prop where
  | empty : Built .empty
  | edit {t : Trace} (stmts : List Stmt) : Built t → Built { t with stmts }
  | newLabel {t : Trace} : Built t → Built t.newLabel.2
  | bind {t : Trace} (addr : Address) : Built t → Built (t.bind addr).2
  | lift {t t' : Trace} {isa : Isa} {bytes : List Byte} {addr : Address} {i : Instruction} :
    Instruction.decode isa bytes addr = .ok i → i.lift t = .ok t' → Built t → Built t'

/-- The address that a label is bound to. -/
def addressOf? (t : Trace) (l : Label) : Option Address := (t.bound.map Prod.swap).lookup l

/-- Bound labels are taken, and each is bound once. -/
structure WellBound (t : Trace) : Prop where
  taken : ∀ entry ∈ t.bound, entry.2.id < t.nextLabel
  once : (t.bound.map Prod.snd).Nodup

theorem WellBound.mono {t t' : Trace} (h : t.WellBound) (hb : t'.bound = t.bound)
    (hn : t.nextLabel ≤ t'.nextLabel) : t'.WellBound where
  taken entry he := Nat.lt_of_lt_of_le (h.taken entry (hb ▸ he)) hn
  once := hb ▸ h.once

theorem WellBound.bind {t : Trace} (h : t.WellBound) (addr : Address) :
    (t.bind addr).2.WellBound := by
  unfold Trace.bind
  split
  · exact h
  · refine ⟨fun entry he => ?_, List.nodup_cons.2 ⟨fun hmem => ?_, h.once⟩⟩
    · rcases List.mem_cons.1 he with rfl | he
      · exact Nat.lt_succ_self t.nextLabel
      · exact Nat.lt_succ_of_lt (h.taken entry he)
    · obtain ⟨entry, he, heq⟩ := List.mem_map.1 hmem
      have hlt := h.taken entry he
      rw [heq] at hlt
      exact Nat.lt_irrefl _ hlt

theorem Built.wellBound {t : Trace} (h : t.Built) : t.WellBound := by
  induction h with
  | empty => exact ⟨by simp [Trace.empty], by simp [Trace.empty]⟩
  | edit stmts _ ih => exact ih.mono rfl (Nat.le_refl _)
  | newLabel _ ih => exact ih.mono rfl (Nat.le_succ _)
  | bind addr _ ih => exact ih.bind addr
  | @lift t _ _ _ _ _ hd hl _ ih =>
    obtain ⟨_, -, hlift⟩ := Instruction.laidOut hd
    obtain ⟨n, hn, hlift⟩ := hlift t
    obtain rfl := Except.ok.inj (hl.symm.trans hlift)
    exact ih.mono rfl hn

end Trace

/-- Bound labels lead to their addresses, and those from `n` on are not bound. -/
structure Leads (exit? : Label → Option Address) (labelAt? : Address → Option Label) (n : Nat) :
    Prop where
  bound : ∀ a l, labelAt? a = some l → exit? l = some a
  fresh : ∀ k, n ≤ k → exit? ⟨k⟩ = none

theorem leads_none : Leads (fun _ => none) (fun _ => none) 0 where
  bound a l h := by cases h
  fresh k _ := rfl

theorem Trace.WellBound.leads {t : Trace} (h : t.WellBound) :
    Leads t.addressOf? t.labelAt? t.nextLabel where
  bound a l hl := by
    obtain ⟨first, rest, hsplit, -⟩ := List.lookup_eq_some_iff.1 hl
    have hsplit' : t.bound.map Prod.swap = first.map Prod.swap ++ (l, a) :: rest.map Prod.swap := by
      rw [hsplit, List.map_append]
      rfl
    refine List.lookup_eq_some_iff.2 ⟨first.map Prod.swap, rest.map Prod.swap, hsplit', ?_⟩
    intro swapped hs
    obtain ⟨entry, he, rfl⟩ := List.mem_map.1 hs
    -- The label of an earlier entry is another one.
    have honce := h.once
    rw [hsplit, List.map_append, List.map_cons] at honce
    have hne := (List.nodup_append.1 honce).2.2 entry.2 (List.mem_map_of_mem he) l (by simp)
    simpa using hne.symm
  fresh k hk := by
    refine List.lookup_eq_none_iff.2 fun swapped hs => ?_
    obtain ⟨entry, he, rfl⟩ := List.mem_map.1 hs
    have hlt := h.taken entry he
    simp only [Prod.fst_swap, bne_iff_ne, ne_eq]
    intro hlabel
    rw [← hlabel] at hlt
    exact absurd hlt (Nat.not_lt.2 hk)

/-! ## Runs in a host -/

/-- The label that a statement marks. -/
def Stmt.mark? : Stmt → Option Label
  | mark l => some l
  | _ => none

namespace Machine

variable {β : Type}

/-- Go on at another address. -/
def goTo (m : Machine β) (addr : Address) : Machine β := m.withCore fun c => { c with pc := addr }

/-- Go on where statements have completed. -/
def andThen (r : Machine β × Outcome) (f : Machine β → Machine β × Outcome) :
    Machine β × Outcome :=
  match r with
  | (m, .done) => f m
  | r => r

variable [Bus β]

/-- `run`, where labels that lead to an address end the code: reaching one sets the program
counter. -/
def runIn (exit? : Label → Option Address) (pc : Address) (code : List Stmt) :
    Nat → List Stmt → Machine β → Machine β × Outcome
  | _, [], m => (m, .done)
  | 0, _ :: _, m => (m, .unfinished)
  | fuel + 1, stmt :: rest, m =>
    match stmt.mark?.bind exit? with
    | some addr => (m.goTo addr, .done)
    | none =>
      match stmt.exec pc m with
      | (m, .next) => runIn exit? pc code fuel rest m
      | (m, .trap t) => (m, .trapped t)
      | (m, .goto l) =>
        match exit? l with
        | some addr => (m.goTo addr, .done)
        | none =>
          match fromMark? l code with
          | some rest => runIn exit? pc code fuel rest m
          | none => (m, .trapped (.outside pc))

/-- Execute statements that an instruction has in a host, from fresh temporaries. -/
def executeIn (t : Trace) (m : Machine β) (pc : Address) (steps : Nat) (code : List Stmt) :
    Machine β × Outcome :=
  (m.withCore fun c => { c with temps := [] }).runIn t.addressOf? pc code steps code

/-- Without bound labels, a run in a host is a run. -/
theorem runIn_none (pc : Address) (code : List Stmt) (fuel : Nat) (rest : List Stmt)
    (m : Machine β) :
    runIn (fun _ => none) pc code fuel rest m = run pc code fuel rest m := by
  have hmark (stmt : Stmt) : (stmt.mark?.bind fun _ => (none : Option Address)) = none := by
    cases stmt <;> rfl
  fun_induction run pc code fuel rest m with
  | case1 => simp [runIn]
  | case2 => rfl
  | case3 fuel stmt rest m m' h ih => simp only [runIn, hmark, h]; exact ih
  | case4 fuel stmt rest m m' t h => simp only [runIn, hmark, h]
  | case5 fuel stmt rest m m' l h rest' hl ih => simp only [runIn, hmark, h, hl]; exact ih
  | case6 fuel stmt rest m m' l h hl => simp only [runIn, hmark, h, hl]; rfl

section Labels

variable {m m' : Machine β} {pc : Address} {exit? : Label → Option Address} {l : Label}
  {code rest found : List Stmt} {fuel : Nat}

/-- Labels that lead nowhere are passed. -/
theorem runIn_mark (he : exit? l = none) :
    m.runIn exit? pc code (fuel + 1) (.mark l :: rest) = m.runIn exit? pc code fuel rest := by
  simp [runIn, Stmt.mark?, Stmt.exec, he]

/-- Labels that lead nowhere are looked for in the code. -/
theorem runIn_goto {stmt : Stmt} (hm : stmt.mark? = none) (hx : stmt.exec pc m = (m', .goto l))
    (he : exit? l = none) (hf : fromMark? l code = some found) :
    m.runIn exit? pc code (fuel + 1) (stmt :: rest) = m'.runIn exit? pc code fuel found := by
  simp [runIn, hm, hx, he, hf]

end Labels

/-- Execute statements without labels, one after the other. -/
def runAll (m : Machine β) (pc : Address) (code : List Stmt) : Machine β × Outcome :=
  m.run pc code code.length code

section Straight

variable {m : Machine β} {pc : Address} {exit? : Label → Option Address} {code : List Stmt}

theorem runIn_append_aux {before : List Stmt} (h : Unlabelled before) (whole after : List Stmt)
    (fuel : Nat) :
    m.runIn exit? pc code (before.length + fuel) (before ++ after) =
      andThen (m.run pc whole before.length before) fun m =>
        m.runIn exit? pc code fuel after := by
  induction before generalizing m with
  | nil => simp [run, andThen]
  | cons stmt before ih =>
    have hstmt := h stmt (by simp)
    have hmark : stmt.mark?.bind exit? = none := by
      cases stmt with
      | mark => cases hstmt
      | _ => rfl
    have hgoto : ∀ l, (stmt.exec pc m).2 ≠ .goto l := by
      refine Stmt.exec_straight ?_
      cases stmt with
      | branch | goto => cases hstmt
      | _ => rfl
    have hfuel : (stmt :: before).length + fuel = before.length + fuel + 1 := by
      simp only [List.length_cons]; omega
    rw [hfuel, List.cons_append, List.length_cons]
    simp only [runIn, run, hmark]
    rcases hx : stmt.exec pc m with ⟨m', _ | l | t⟩
    · exact ih fun s hs => h s (by simp [hs])
    · exact absurd (congrArg Prod.snd hx) (hgoto l)
    · rfl

/-- Statements without labels are executed first, whatever labels there are. -/
theorem runIn_append {before : List Stmt} (h : Unlabelled before) (after : List Stmt)
    (fuel : Nat) :
    m.runIn exit? pc code (before.length + fuel) (before ++ after) =
      andThen (m.runAll pc before) fun m => m.runIn exit? pc code fuel after :=
  runIn_append_aux h before after fuel

theorem runIn_unlabelled {rest : List Stmt} (h : Unlabelled rest) {fuel : Nat}
    (hf : rest.length ≤ fuel) : m.runIn exit? pc code fuel rest = m.runAll pc rest := by
  obtain ⟨extra, rfl⟩ := Nat.exists_eq_add_of_le hf
  have happ : m.runIn exit? pc code (rest.length + extra) (rest ++ []) = _ :=
    runIn_append h [] extra
  rw [List.append_nil] at happ
  rw [happ]
  rcases m.runAll pc rest with ⟨m', _ | t | _⟩ <;> simp [andThen, runIn]

end Straight

end Machine

/-! ## What a layout does -/

namespace Lift

variable {β : Type} [Bus β] {m : Machine β} {pc : Address} {exit? : Label → Option Address}
  {known : Address → Option Label} {n : Nat}

/-- What an instruction with the layout does, if `next` follows it. Where it falls through, the
program counter stays unless `next` is known. -/
def Layout.meaning (next : Address) (nextKnown : Bool) (pc : Address) (m : Machine β) :
    Layout → Machine β × Outcome
  | plain code => m.runAll pc code
  | jump target => (m.goTo target, .done)
  | branch before cond target =>
    Machine.andThen (m.runAll pc before) fun m =>
      match cond.eval m with
      | .error t => (m, .trapped t)
      | .ok v =>
        (if v ≠ 0 then m.goTo target else if nextKnown then m.goTo next else m, .done)
  | skip before cond body after =>
    Machine.andThen (m.runAll pc before) fun m =>
      match cond.eval m with
      | .error t => (m, .trapped t)
      | .ok v =>
        Machine.andThen (if v ≠ 0 then m.runAll pc body else (m, .done)) fun m =>
          m.runAll pc after

omit [Bus β] in
theorem write_pc_eq_goTo (target : Address) :
    (m.withCore fun c => c.write .pc (target.setWidth 64)) = m.goTo target := by
  simp [Machine.goTo, Machine.withCore, Core.write, Register.canonical]

variable (h : Leads exit? known n)
include h

theorem runIn_jumpCode (target : Address) (fuel : Nat) (code : List Stmt) :
    m.runIn exit? pc code (fuel + 1) (jumpCode known target) = (m.goTo target, .done) := by
  unfold jumpCode
  cases hl : known target with
  | none => simp [Machine.runIn, Stmt.mark?, Stmt.exec, Expr.eval_word, write_pc_eq_goTo]
  | some l => simp [Machine.runIn, Stmt.mark?, Stmt.exec, h.bound target l hl]

/-- The four shapes of a two-way branch do the same, but for a fall-through. -/
theorem runIn_branchCode (before : List Stmt) (cond : Expr) (target next : Address) :
    let code := branchCode known n cond target next
    m.runIn exit? pc (before ++ code) code.length code =
      match cond.eval m with
      | .error t => (m, .trapped t)
      | .ok v =>
        (if v ≠ 0 then m.goTo target else if (known next).isSome then m.goTo next else m,
          .done) := by
  have hfirst := h.fresh n (Nat.le_refl n)
  have hsecond := h.fresh (n + 1) (Nat.le_succ n)
  have hfind {l : Label} {tail found : List Stmt} (hl : fromMark? l tail = some found) :=
    fromMark?_append hl before
  unfold branchCode
  cases hc : cond.eval m with
  | error t =>
    cases known target <;> cases known next <;>
      simp [Machine.runIn, Stmt.mark?, Stmt.exec, hc]
  | ok v =>
    cases htaken : known target with
    | none =>
      cases hfall : known next with
      | none =>
        let tail : List Stmt := [.mark ⟨n⟩, .jump (.word target), .mark ⟨n + 1⟩]
        have hyes : fromMark? ⟨n⟩ (before ++ .branch cond ⟨n⟩ ⟨n + 1⟩ :: tail) = some tail :=
          hfind (by simp [fromMark?, tail])
        have hno : fromMark? ⟨n + 1⟩ (before ++ .branch cond ⟨n⟩ ⟨n + 1⟩ :: tail) =
            some [.mark ⟨n + 1⟩] := hfind (by simp [fromMark?, tail])
        by_cases hv : v = 0#64 <;>
          simp [Machine.runIn, Stmt.mark?, Stmt.exec, hc, hv, hfirst, hsecond, hyes, hno, tail,
            Expr.eval_word, write_pc_eq_goTo]
      | some fall =>
        have hyes : fromMark? ⟨n⟩ (before ++ [.branch cond ⟨n⟩ fall, .mark ⟨n⟩,
            .jump (.word target)]) = some [.mark ⟨n⟩, .jump (.word target)] :=
          hfind (by simp [fromMark?])
        by_cases hv : v = 0#64 <;>
          simp [Machine.runIn, Stmt.mark?, Stmt.exec, hc, hv, hfirst, hyes, Expr.eval_word,
            write_pc_eq_goTo, h.bound next fall hfall]
    | some taken =>
      cases hfall : known next with
      | none =>
        have hno : fromMark? ⟨n⟩ (before ++ [.branch cond taken ⟨n⟩, .mark ⟨n⟩]) =
            some [.mark ⟨n⟩] := hfind (by simp [fromMark?])
        by_cases hv : v = 0#64 <;>
          simp [Machine.runIn, Stmt.mark?, Stmt.exec, hc, hv, hfirst, hno,
            h.bound target taken htaken]
      | some fall =>
        by_cases hv : v = 0#64 <;>
          simp [Machine.runIn, Stmt.mark?, Stmt.exec, hc, hv, h.bound target taken htaken,
            h.bound next fall hfall]

theorem runIn_skipCode {before body after : List Stmt} (hbody : Unlabelled body)
    (hafter : Unlabelled after) (cond : Expr) :
    let code := skipCode n cond body after
    m.runIn exit? pc (before ++ code) code.length code =
      match cond.eval m with
      | .error t => (m, .trapped t)
      | .ok v =>
        Machine.andThen (if v ≠ 0 then m.runAll pc body else (m, .done)) fun m =>
          m.runAll pc after := by
  intro code
  have hfirst := h.fresh n (Nat.le_refl n)
  have hsecond := h.fresh (n + 1) (Nat.le_succ n)
  have hrest (m : Machine β) {fuel : Nat} (hf : after.length ≤ fuel) :
      m.runIn exit? pc (before ++ code) (fuel + 1) (.mark ⟨n + 1⟩ :: after) =
        m.runAll pc after := by
    rw [Machine.runIn_mark hsecond, Machine.runIn_unlabelled hafter hf]
  have hlength : code.length = body.length + (after.length + 1) + 1 + 1 := by
    simp [code, skipCode]
  let first : Stmt := .branch cond ⟨n⟩ ⟨n + 1⟩
  have hyes : fromMark? ⟨n⟩ (before ++ code) =
      some (.mark ⟨n⟩ :: (body ++ .mark ⟨n + 1⟩ :: after)) := by
    refine fromMark?_append (fromMark?_append (fromMark?_cons_self ?_) [first]) before
    simp [hbody.mark_not_mem, hafter.mark_not_mem]
  have hno : fromMark? ⟨n + 1⟩ (before ++ code) = some (.mark ⟨n + 1⟩ :: after) :=
    fromMark?_append (fromMark?_append (fromMark?_cons_self (hafter.mark_not_mem _))
      (first :: .mark ⟨n⟩ :: body)) before
  rw [hlength]
  show Machine.runIn exit? pc (before ++ code) _ (first :: _) m = _
  cases hc : cond.eval m with
  | error t => simp [Machine.runIn, Stmt.mark?, Stmt.exec, hc, first]
  | ok v =>
    by_cases hv : v = 0#64
    · have hgoto : first.exec pc m = (m, .goto ⟨n + 1⟩) := by simp [first, Stmt.exec, hc, hv]
      rw [Machine.runIn_goto rfl hgoto hsecond hno, hrest m (by omega)]
      simp [hv, Machine.andThen]
    · have hgoto : first.exec pc m = (m, .goto ⟨n⟩) := by simp [first, Stmt.exec, hc, hv]
      rw [Machine.runIn_goto rfl hgoto hfirst hyes, Machine.runIn_mark hfirst,
        Machine.runIn_append hbody]
      simp [hv, hrest]

/-- The code of a layout does what the layout says, whatever labels the host has. -/
theorem Layout.runIn_code {l : Layout} (hs : l.Sound) (next : Address) :
    let code := l.code next known n
    m.runIn exit? pc code code.length code = l.meaning next (known next).isSome pc m := by
  cases l with
  | plain code => exact Machine.runIn_unlabelled hs (Nat.le_refl _)
  | jump target =>
    have hlength : (jumpCode known target).length = 0 + 1 := by
      unfold jumpCode
      split <;> rfl
    show m.runIn exit? pc _ (jumpCode known target).length _ = _
    rw [hlength]
    exact runIn_jumpCode h target 0 _
  | branch before cond target =>
    simp only [code, List.length_append]
    rw [Machine.runIn_append hs.1]
    exact congrArg _ (funext fun m => runIn_branchCode h before cond target next)
  | skip before cond body after =>
    simp only [code, List.length_append]
    rw [Machine.runIn_append hs.1]
    exact congrArg _ (funext fun m => runIn_skipCode h hs.2.1 hs.2.2 cond)

omit h in
/-- To know the next address matters only to an instruction that falls through to it. -/
theorem Layout.meaning_known {l : Layout} (hs : l.Sound) (next : Address) :
    l.meaning next true pc m = l.meaning next false pc m ∨
    (l.meaning next false pc m).2 = .done ∧
      (l.meaning next false pc m).1.core.pc = m.core.pc ∧
      l.meaning next true pc m = ((l.meaning next false pc m).1.goTo next, .done) := by
  cases l with
  | plain | jump | skip => exact .inl rfl
  | branch before cond target =>
    have hpc : (m.runAll pc before).1.core.pc = m.core.pc :=
      Core.pc_eq_of_read (Machine.read_run trivial (by simp) hs.2)
    simp only [meaning]
    generalize m.runAll pc before = run at hpc ⊢
    obtain ⟨m', _ | t | _⟩ := run
    · simp only [Machine.andThen]
      cases cond.eval m' with
      | error t => exact .inl rfl
      | ok v =>
        by_cases hv : v = 0#64
        · exact .inr ⟨rfl, by simpa [hv] using hpc, by simp [hv]⟩
        · exact .inl (by simp [hv])
    · exact .inl rfl
    · exact .inl rfl

end Lift

/-! ## The meaning of an instruction in a host -/

/-- A decoded instruction ends in a host as it ends alone, with the same trap if any, and both leave
the same state if its start state has the program counter past the instruction, or if the host has no
label there. Otherwise they can differ in the program counter of an instruction that falls through:
the host's label sets it, and alone the instruction leaves it as it was. -/
theorem host_labels_keep_meaning {isa : Isa} {bytes : List Byte} {addr : Address}
    {i : Instruction} (h : Instruction.decode isa bytes addr = .ok i) {t : Trace} (ht : t.Built) :
    ∃ alone hosted : List Stmt, ∃ n n',
      i.lift .empty = .ok { Trace.empty with stmts := alone, nextLabel := n } ∧
      i.lift t = .ok { t with stmts := t.stmts ++ hosted, nextLabel := n' } ∧
      ∀ {β : Type} [Bus β] (m : Machine β) (pc : Address),
        let r := m.execute pc alone.length alone
        let r' := m.executeIn t pc hosted.length hosted
        r'.2 = r.2 ∧ r.2 ≠ .unfinished ∧
        (m.core.pc = i.next ∨ t.labelAt? i.next = none → r' = r) ∧
        (r' = r ∨ r.2 = .done ∧ r.1.core.pc = m.core.pc ∧ r'.1 = r.1.goTo i.next) := by
  obtain ⟨l, hsound, hlift⟩ := Instruction.laidOut h
  obtain ⟨n, -, halone⟩ := hlift .empty
  obtain ⟨n', -, hhosted⟩ := hlift t
  refine ⟨l.code i.next (fun _ => none) 0, l.code i.next t.labelAt? t.nextLabel, n, n',
    halone, hhosted, ?_⟩
  intro β _ m pc r r'
  let start := m.withCore fun c => { c with temps := [] }
  have hr : r = l.meaning i.next false pc start :=
    (Machine.runIn_none ..).symm.trans (Lift.Layout.runIn_code leads_none hsound i.next)
  have hr' : r' = l.meaning i.next (t.labelAt? i.next).isSome pc start :=
    Lift.Layout.runIn_code ht.wellBound.leads hsound i.next
  have hfinished : r.2 ≠ .unfinished := (l.forward hsound i.next 0).execute_finished pc m
  cases hk : (t.labelAt? i.next).isSome with
  | false =>
    have heq : r' = r := by rw [hr', hr, hk]
    exact ⟨congrArg Prod.snd heq, hfinished, fun _ => heq, .inl heq⟩
  | true =>
    rw [hk] at hr'
    have hknown : r' = r ∨ r.2 = .done ∧ r.1.core.pc = m.core.pc ∧
        r' = (r.1.goTo i.next, .done) := by
      rw [hr, hr']
      exact l.meaning_known hsound i.next
    rcases hknown with heq | ⟨hdone, hpc, heq⟩
    · exact ⟨congrArg Prod.snd heq, hfinished, fun _ => heq, .inl heq⟩
    · refine ⟨by rw [heq, hdone], hfinished, fun hnext => ?_, .inr ⟨hdone, hpc, by rw [heq]⟩⟩
      rcases hnext with hnext | hnone
      · have hself : r.1.goTo i.next = r.1 := by
          rw [← hnext, ← hpc]
          rfl
        rw [heq, hself, ← hdone]
      · rw [hnone] at hk
        cases hk

/-- `jz` in a host that has labels for both of its successors, where it is a branch and nothing
else. -/
theorem host_labels_keep_meaning_jz :
    let t := ((Trace.empty.bind 0x108).2.bind 0x102).2
    ∃ i alone hosted, Instruction.decode .v16 [0x6E, 0x04] 0x100 = .ok i ∧ t.Built ∧
      (i.lift .empty).map (·.stmts) = .ok alone ∧ alone.length = 4 ∧
      (i.lift t).map (·.stmts) = .ok hosted ∧ hosted.length = 1 ∧
      ∀ {β : Type} [Bus β] (m : Machine β), m.core.pc = 0x102 →
        m.executeIn t 0x100 1 hosted = m.execute 0x100 4 alone := by
  intro t
  have ht : t.Built := .bind _ (.bind _ .empty)
  obtain ⟨i, hi, hnext, hlengths⟩ : ∃ i,
      Instruction.decode .v16 [0x6E, 0x04] 0x100 = .ok i ∧ i.next = 0x102 ∧
        ((i.lift .empty).map fun t => t.stmts.length) = .ok 4 ∧
        ((i.lift t).map fun t => t.stmts.length) = .ok 1 :=
    ⟨_, rfl, rfl, rfl, rfl⟩
  obtain ⟨alone, hosted, n, n', halone, hhosted, hmeaning⟩ := host_labels_keep_meaning hi ht
  rw [halone, hhosted] at hlengths
  have hfour : alone.length = 4 := Except.ok.inj hlengths.1
  have hone : hosted.length = 1 := Except.ok.inj hlengths.2
  refine ⟨i, alone, hosted, hi, ht, by rw [halone]; rfl, hfour, by rw [hhosted]; rfl, hone, ?_⟩
  intro β _ m hm
  have hsame := (hmeaning m 0x100).2.2.1 (.inl (hm.trans hnext.symm))
  rwa [hfour, hone] at hsame

/-- The program counter has not been moved past this `jz`, which falls through to an address that the
host has a label for: alone it leaves the program counter, and in the host it sets it. -/
theorem host_label_moves_pc :
    let t := (Trace.empty.bind 0x102).2
    let m : Machine Window := ⟨({} : Core).write (.d 15) 1, ⟨0, 0, .empty⟩⟩
    ∃ i alone hosted, Instruction.decode .v16 [0x6E, 0x04] 0x100 = .ok i ∧ t.Built ∧
      (i.lift .empty).map (·.stmts) = .ok alone ∧ (i.lift t).map (·.stmts) = .ok hosted ∧
      (m.execute 0x100 alone.length alone).2 = .done ∧
      (m.execute 0x100 alone.length alone).1.core.pc = 0 ∧
      (m.executeIn t 0x100 hosted.length hosted).2 = .done ∧
      (m.executeIn t 0x100 hosted.length hosted).1.core.pc = 0x102 := by
  intro t m
  exact ⟨_, _, _, rfl, .bind _ .empty, rfl, rfl, rfl, rfl, rfl, rfl⟩

end Tricore
