import Mathlib
import Tricore.Proofs.Emission
import Tricore.Proofs.Typing

/-!
# Temporaries and labels of emissions

A list of statements is `Scoped` if each statement is typed, reads no temporary that has not been
written before, and writes none that has. `Types` is a triple for emissions: from known temporaries
the statements are scoped, and the value has a property that may depend on the temporaries known by
then. An emission that may not use labels is moreover `Unlabelled`: it emits the same whatever labels
there are, and takes none.
-/

namespace Tricore

namespace Stmt

/-- The temporaries that a statement writes. -/
def temps (stmt : Stmt) : List Register := stmt.named.filter Register.isTemp

/-- The statement is typed, reads known temporaries and writes others. -/
structure Admitted (known : List Register) (stmt : Stmt) : Prop where
  typed : stmt.Typed
  reads : ∀ r ∈ stmt.reads, r.isTemp = true → r ∈ known
  once : stmt.temps.Nodup
  fresh : ∀ r ∈ stmt.temps, r ∉ known

/-- The statement takes part in control flow by labels. -/
def usesLabel : Stmt → Bool
  | branch _ _ _ | goto _ | mark _ => true
  | _ => false

end Stmt

/-- The temporaries known after statements. -/
def knownAfter (known : List Register) : List Stmt → List Register
  | [] => known
  | stmt :: rest => knownAfter (stmt.temps ++ known) rest

/-- Typed statements that write each temporary once, before they read it. -/
def Scoped (known : List Register) : List Stmt → Prop
  | [] => True
  | stmt :: rest => stmt.Admitted known ∧ Scoped (stmt.temps ++ known) rest

section Scoped

variable {known : List Register} {xs ys : List Stmt}

theorem knownAfter_append : knownAfter known (xs ++ ys) = knownAfter (knownAfter known xs) ys := by
  induction xs generalizing known with
  | nil => rfl
  | cons stmt xs ih => exact ih

theorem scoped_append :
    Scoped known (xs ++ ys) ↔ Scoped known xs ∧ Scoped (knownAfter known xs) ys := by
  induction xs generalizing known with
  | nil => simp [Scoped, knownAfter]
  | cons stmt xs ih => simp [Scoped, knownAfter, ih, and_assoc]

theorem subset_knownAfter : known ⊆ knownAfter known xs := by
  induction xs generalizing known with
  | nil => exact List.Subset.refl known
  | cons stmt xs ih => exact List.Subset.trans (List.subset_append_right stmt.temps known) ih

theorem count_knownAfter {r : Register} (hr : r.isTemp = true) :
    (knownAfter known xs).count r = (xs.flatMap Stmt.named).count r + known.count r := by
  induction xs generalizing known with
  | nil => simp [knownAfter]
  | cons stmt xs ih =>
    have htemps : stmt.temps.count r = stmt.named.count r := List.count_filter hr
    rw [knownAfter, ih, List.flatMap_cons, List.count_append, List.count_append, htemps]
    omega

theorem Scoped.nodup (h : Scoped known xs) (hk : known.Nodup) : (knownAfter known xs).Nodup := by
  induction xs generalizing known with
  | nil => exact hk
  | cons stmt xs ih =>
    refine ih h.2 (List.Nodup.append h.1.once hk ?_)
    exact List.disjoint_left.2 h.1.fresh

theorem Scoped.typed (h : Scoped known xs) {stmt : Stmt} (hs : stmt ∈ xs) : stmt.Typed := by
  induction xs generalizing known with
  | nil => cases hs
  | cons first xs ih =>
    rcases List.mem_cons.1 hs with rfl | hs
    · exact h.1.typed
    · exact ih h.2 hs

/-- A temporary that is read is written once, and before. -/
theorem Scoped.written_once (h : Scoped [] xs) {k : Nat} {stmt : Stmt} (hk : xs[k]? = some stmt)
    {r : Register} (hr : r ∈ stmt.reads) (ht : r.isTemp = true) :
    (xs.flatMap Stmt.named).count r = 1 ∧ r ∈ (xs.take k).flatMap Stmt.named := by
  obtain ⟨hlt, rfl⟩ := List.getElem?_eq_some_iff.1 hk
  have hsplit : xs = xs.take k ++ (xs[k] :: xs.drop (k + 1)) := by simp
  have hrest : Scoped (knownAfter [] (xs.take k)) (xs[k] :: xs.drop (k + 1)) := by
    rw [hsplit] at h
    exact (scoped_append.1 h).2
  have hbefore : r ∈ (xs.take k).flatMap Stmt.named := by
    have hmem := hrest.1.reads r hr ht
    rw [← List.count_pos_iff, count_knownAfter ht] at hmem
    simpa [List.count_pos_iff] using hmem
  have hnodup := h.nodup List.nodup_nil
  refine ⟨?_, hbefore⟩
  have hle : (knownAfter [] xs).count r ≤ 1 := List.nodup_iff_count_le_one.1 hnodup r
  rw [count_knownAfter ht] at hle
  have hmem : r ∈ xs.flatMap Stmt.named := by
    rw [hsplit, List.flatMap_append]
    exact List.mem_append_left _ hbefore
  have hpos := List.count_pos_iff.2 hmem
  simp only [List.count_nil] at hle
  omega

end Scoped

/-! ## Quiet statements -/

namespace Stmt

/-- A typed statement that reads known temporaries, writes none, and has no labels. -/
structure Quiet (known : List Register) (stmt : Stmt) : Prop where
  typed : stmt.Typed
  reads : ∀ r ∈ stmt.reads, r.isTemp = true → r ∈ known
  named : ∀ r ∈ stmt.named, r.isTemp = false
  unlabelled : stmt.usesLabel = false

variable {known : List Register} {e : Expr} {stmt : Stmt}

theorem temps_eq_nil (h : ∀ r ∈ stmt.named, r.isTemp = false) : stmt.temps = [] :=
  List.filter_eq_nil_iff.2 fun r hr => by simp [h r hr]

theorem Admitted.of_named (typed : stmt.Typed)
    (reads : ∀ r ∈ stmt.reads, r.isTemp = true → r ∈ known)
    (named : ∀ r ∈ stmt.named, r.isTemp = false) : stmt.Admitted known where
  typed := typed
  reads := reads
  once := by simp [temps_eq_nil named]
  fresh := by simp [temps_eq_nil named]

namespace Quiet

theorem admitted (h : stmt.Quiet known) : stmt.Admitted known := .of_named h.typed h.reads h.named

theorem setReg {r : Register} (hr : r.isTemp = false) (h : e.HasWidth known r.width) :
    (Stmt.setReg r e).Quiet known where
  typed := ⟨h.1, h.2.1⟩
  reads := h.2.2
  named := by simpa [Stmt.named] using hr
  unlabelled := rfl

theorem setFlag {f : Flag} (h : e.HasWidth known .byte) : (Stmt.setFlag f e).Quiet known where
  typed := ⟨h.1, h.2.1⟩
  reads := h.2.2
  named := by simp [Stmt.named]
  unlabelled := rfl

theorem store {w : Width} {addr : Expr} (ha : addr.HasWidth known .word)
    (h : e.HasWidth known w) : (Stmt.store w addr e).Quiet known where
  typed := ⟨⟨ha.1, ha.2.1⟩, h.1, h.2.1⟩
  reads := by
    intro r hr
    rcases List.mem_append.1 hr with hr | hr
    · exact ha.2.2 r hr
    · exact h.2.2 r hr
  named := by simp [Stmt.named]
  unlabelled := rfl

theorem jump (h : e.HasWidth known .word) : (Stmt.jump e).Quiet known where
  typed := ⟨h.1, h.2.1⟩
  reads := h.2.2
  named := by simp [Stmt.named]
  unlabelled := rfl

theorem call (h : e.HasWidth known .word) : (Stmt.call e).Quiet known where
  typed := ⟨h.1, h.2.1⟩
  reads := h.2.2
  named := by simp [Stmt.named]
  unlabelled := rfl

theorem ret (h : e.HasWidth known .word) : (Stmt.ret e).Quiet known where
  typed := ⟨h.1, h.2.1⟩
  reads := h.2.2
  named := by simp [Stmt.named]
  unlabelled := rfl

theorem intrinsic {i : Intrinsic} {outputs : List Register} {inputs : List Expr}
    (ho : ∀ r ∈ outputs, r.isTemp = false) (h : ∀ e ∈ inputs, ∃ w, e.HasWidth known w)
    (hi : i.takesAddress = true → ∀ e ∈ inputs, e.HasWidth known .word) :
    (Stmt.intrinsic i outputs inputs).Quiet known where
  typed := by
    intro e he
    obtain ⟨w, ht, -⟩ := h e he
    exact ⟨ht, fun ha => (hi ha e he).2.1⟩
  reads := by
    intro r hr
    obtain ⟨e, he, hr⟩ := List.mem_flatMap.1 hr
    obtain ⟨w, -, -, hk⟩ := h e he
    exact hk r hr
  named := ho
  unlabelled := rfl

theorem mono {more : List Register} (h : stmt.Quiet known) (hm : known ⊆ more) :
    stmt.Quiet more where
  typed := h.typed
  reads r hr ht := hm (h.reads r hr ht)
  named := h.named
  unlabelled := h.unlabelled

theorem nop : Stmt.nop.Quiet known where
  typed := trivial
  reads := by simp [Stmt.reads]
  named := by simp [Stmt.named]
  unlabelled := rfl

end Quiet

end Stmt

/-- A register of the given width that is no temporary. -/
def Register.Plain (w : Width) (r : Register) : Prop := r.isTemp = false ∧ r.width = w

/-- The number of a temporary. -/
def Register.number : Register → Nat
  | .temp n | .tempWide n => n
  | _ => 0

/-! ## The triple -/

namespace Lift

variable {α β : Type}

/-- The emission neither takes nor uses labels, and does not ask for those of addresses. -/
structure Emit.Unlabelled (x : Emit α) (supply : Supply) : Prop where
  stmts : ∀ stmt ∈ (x supply).2.1, stmt.usesLabel = false
  relabel : ∀ labels labelAt?,
    x { supply with labels, labelAt? } =
      ((x supply).1, (x supply).2.1, { (x supply).2.2 with labels, labelAt? })

theorem Emit.bind_apply (x : Emit α) (f : α → Emit β) (supply : Supply) :
    (x >>= f) supply = ((f (x supply).1 (x supply).2.2).1,
      (x supply).2.1 ++ (f (x supply).1 (x supply).2.2).2.1,
      (f (x supply).1 (x supply).2.2).2.2) := rfl

theorem Emit.Unlabelled.bind {x : Emit α} {f : α → Emit β} {supply : Supply}
    (hx : x.Unlabelled supply) (hf : (f (x supply).1).Unlabelled (x supply).2.2) :
    (x >>= f).Unlabelled supply where
  stmts stmt hs := by
    rcases List.mem_append.1 hs with hs | hs
    · exact hx.stmts stmt hs
    · exact hf.stmts stmt hs
  relabel labels labelAt? := by
    rw [Emit.bind_apply, Emit.bind_apply, hx.relabel]
    simp only [hf.relabel labels labelAt?]

/-- What an emission does with a supply, from known temporaries. -/
structure TypesAt (labels : Bool) (known : List Register) (Q : List Register → α → Prop)
    (x : Emit α) (supply : Supply) : Prop where
  order : Scoped known (x supply).2.1
  numbers : ∀ r ∈ knownAfter known (x supply).2.1, r.number < (x supply).2.2.temps
  value : Q (knownAfter known (x supply).2.1) (x supply).1
  unlabelled : labels = false → x.Unlabelled supply

/-- The statements are scoped, and the value has the property. Labels are used only if they may
be. -/
def Types (labels : Bool) (known : List Register) (Q : List Register → α → Prop) (x : Emit α) :
    Prop :=
  ∀ supply, (∀ r ∈ known, r.number < supply.temps) → TypesAt labels known Q x supply

namespace Types

variable {labels : Bool} {known : List Register} {Q : List Register → α → Prop}
  {R : List Register → β → Prop} {x : Emit α} {f : α → Emit β} {u : Unit → Emit β}
  {S : List Register → Unit → Prop}

theorem pure {a : α} (h : Q known a) : Types labels known Q (Pure.pure a) := fun _ hn =>
  { order := trivial
    numbers := hn
    value := h
    unlabelled := fun _ => ⟨by rintro _ ⟨⟩, fun _ _ => rfl⟩ }

theorem bind (hx : Types labels known Q x)
    (hf : ∀ more, known ⊆ more → ∀ a, Q more a → Types labels more R (f a)) :
    Types labels known R (x >>= f) := by
  intro supply hn
  have first := hx supply hn
  have rest := hf _ subset_knownAfter _ first.value _ first.numbers
  have hknown : knownAfter known ((x >>= f) supply).2.1 =
      knownAfter (knownAfter known (x supply).2.1) (f (x supply).1 (x supply).2.2).2.1 :=
    knownAfter_append
  exact
    { order := scoped_append.2 ⟨first.order, rest.order⟩
      numbers := hknown ▸ rest.numbers
      value := hknown ▸ rest.value
      unlabelled := fun hl => (first.unlabelled hl).bind (rest.unlabelled hl) }

/-- The values of a list of emissions keep their property as more temporaries become known. -/
theorem mapM {g : β → Emit α} {bs : List β}
    (hmono : ∀ less more a, less ⊆ more → Q less a → Q more a)
    (h : ∀ b ∈ bs, ∀ more, known ⊆ more → Types labels more Q (g b)) :
    Types labels known (fun more as => ∀ a ∈ as, Q more a) (bs.mapM g) := by
  suffices hloop : ∀ known' acc, known ⊆ known' → (∀ a ∈ acc, Q known' a) →
      Types labels known' (fun more as => ∀ a ∈ as, Q more a) (List.mapM.loop g bs acc) from
    hloop known [] (List.Subset.refl known) (by simp)
  induction bs with
  | nil => exact fun known' acc _ hacc => pure (by simpa using hacc)
  | cons b bs ih =>
    intro known' acc hsub hacc
    refine bind (h b List.mem_cons_self known' hsub) fun more hmore a ha => ?_
    refine ih (fun b' hb => h b' (List.mem_cons_of_mem b hb)) more (a :: acc)
      (List.Subset.trans hsub hmore) fun a' ha' => ?_
    rcases List.mem_cons.1 ha' with rfl | ha'
    · exact ha
    · exact hmono known' more a' hmore (hacc a' ha')

/-! ### Statements -/

theorem knownAfter_quiet {stmts : List Stmt} (h : ∀ stmt ∈ stmts, stmt.Quiet known) :
    Scoped known stmts ∧ knownAfter known stmts = known := by
  induction stmts with
  | nil => exact ⟨trivial, rfl⟩
  | cons stmt stmts ih =>
    have hs := h stmt List.mem_cons_self
    obtain ⟨hscoped, hknown⟩ := ih fun x hx => h x (List.mem_cons_of_mem stmt hx)
    have htemps := Stmt.temps_eq_nil hs.named
    exact ⟨⟨hs.admitted, by simpa [htemps] using hscoped⟩, by simpa [knownAfter, htemps] using hknown⟩

theorem emitAll {stmts : List Stmt} (h : ∀ stmt ∈ stmts, stmt.Quiet known) (hq : S known ()) :
    Types labels known S (emitAll stmts) := by
  intro supply hn
  obtain ⟨hscoped, hknown⟩ := knownAfter_quiet h
  exact
    { order := hscoped
      numbers := hknown.symm ▸ hn
      value := hknown.symm ▸ hq
      unlabelled := fun _ => ⟨fun stmt hs => (h stmt hs).unlabelled, fun _ _ => rfl⟩ }

/-- What comes first makes no temporaries known. -/
theorem keep_bind {x : Emit Unit} (hx : Types labels known (fun more _ => more = known) x)
    (hu : Types labels known R (u ())) : Types labels known R (x >>= u) := by
  refine bind hx fun more _ _ hm => ?_
  subst hm
  exact hu

theorem emit {stmt : Stmt} (h : stmt.Quiet known) (hq : S known ()) :
    Types labels known S (emit stmt) := by
  have hall : ∀ s ∈ [stmt], s.Quiet known := by simpa using h
  exact emitAll hall hq

theorem emit_bind {stmt : Stmt} (h : stmt.Quiet known) (hu : Types labels known R (u ())) :
    Types labels known R (Lift.emit stmt >>= u) :=
  keep_bind (emit h rfl) hu

/-- A value is kept in a temporary that was not known before. -/
theorem temp_bind (w : Width) {v : Expr} {g : Expr → Emit β} (hv : v.HasWidth known w)
    (hg : ∀ r : Register, r.width = w.kept → Types labels (r :: known) R (g (.reg r))) :
    Types labels known R (temp v >>= g) := by
  refine bind (Q := fun more e => ∃ r : Register, more = r :: known ∧ e = .reg r ∧
    r.width = w.kept) (fun supply hn => ?_) ?_
  · -- The register is of the value's width, or the value is widened to the register's.
    have hfor : ∃ r value, tempFor supply.temps v = (r, value) ∧ r.isTemp = true ∧
        r.number = supply.temps ∧ r.width = w.kept ∧ value.HasWidth known r.width := by
      unfold tempFor
      cases w with
      | double => simpa [hv.2.1, Register.isTemp, Register.number, Register.width, Width.kept] using hv
      | word => simpa [hv.2.1, Register.isTemp, Register.number, Register.width, Width.kept] using hv
      | byte | half =>
        simp [hv.2.1, Register.isTemp, Register.number, Register.width, Width.kept, hv.iff]
    obtain ⟨r, value, hr, ht, hnum, hw, hvalue⟩ := hfor
    have hrun : temp v supply = (.reg r, [.setReg r value],
        { supply with temps := supply.temps + 1 }) := by
      simp [temp, hr]
    have htemps : (Stmt.setReg r value).temps = [r] := by simp [Stmt.temps, Stmt.named, ht]
    have hknown : knownAfter known [.setReg r value] = r :: known := by simp [knownAfter, htemps]
    have hfresh : r ∉ known := fun hmem => absurd (hn r hmem) (by omega)
    have hadmitted : (Stmt.setReg r value).Admitted known :=
      { typed := ⟨hvalue.1, hvalue.2.1⟩
        reads := hvalue.2.2
        once := by simp [htemps]
        fresh := by simpa [htemps] using hfresh }
    refine ⟨?_, ?_, ?_, fun _ => ⟨?_, fun _ _ => rfl⟩⟩
    · rw [hrun]
      exact ⟨hadmitted, trivial⟩
    · rw [hrun, hknown]
      intro x hx
      rcases List.mem_cons.1 hx with rfl | hx
      · show x.number < supply.temps + 1
        omega
      · exact Nat.lt_succ_of_lt (hn x hx)
    · rw [hrun, hknown]
      exact ⟨r, rfl, rfl, hw⟩
    · rw [hrun]
      simp [Stmt.usesLabel]
  · rintro more - e ⟨r, rfl, rfl, hw⟩
    exact hg r hw

section Named

variable {w : Width} {e v av : Expr} {dst : Register} {g : Flag}

theorem set (hd : dst.Plain w) (he : e.HasWidth known w) (hq : S known ()) :
    Types labels known S (set dst e) := by
  obtain ⟨ht, rfl⟩ := hd
  exact emit (.setReg ht he) hq

theorem set_bind (hd : dst.Plain w) (he : e.HasWidth known w) (hu : Types labels known R (u ())) :
    Types labels known R (Lift.set dst e >>= u) := by
  obtain ⟨ht, rfl⟩ := hd
  exact emit_bind (.setReg ht he) hu

theorem setFlag_bind (he : e.HasWidth known .byte) (hu : Types labels known R (u ())) :
    Types labels known R (setFlag g e >>= u) :=
  emit_bind (.setFlag he) hu

theorem overflowStatus (hv : v.HasWidth known .byte) (hav : av.HasWidth known .byte)
    (hq : S known ()) : Types labels known S (overflowStatus v av) :=
  setFlag_bind hv (setFlag_bind (by simp) (emit (.setFlag hav) hq))

theorem status (hv : v.HasWidth known .byte) (hav : av.HasWidth known .byte)
    (hq : S known ()) : Types labels known S (status v av) :=
  keep_bind (overflowStatus hv hav rfl) (emit (.setFlag (by simp)) hq)

/-- The status is written first, and then the result. -/
theorem status_set (hd : dst.Plain w) (hv : v.HasWidth known .byte)
    (hav : av.HasWidth known .byte) (he : e.HasWidth known w) (hq : S known ()) :
    Types labels known S (do Lift.status v av; Lift.set dst e) :=
  keep_bind (status hv hav rfl) (set hd he hq)

end Named

/-! ### Labels -/

theorem labelAt?_bind {addr : Address} {g : Option Label → Emit β}
    (hg : ∀ l?, Types true known R (g l?)) : Types true known R (labelAt? addr >>= g) := by
  refine bind (Q := fun more _ => more = known) (fun supply hn => ?_) fun more _ l? hm => ?_
  · exact ⟨trivial, hn, rfl, fun hl => by cases hl⟩
  · subst hm
    exact hg l?

theorem newLabel_bind {g : Label → Emit β} (hg : ∀ l, Types true known R (g l)) :
    Types true known R (newLabel >>= g) := by
  refine bind (Q := fun more _ => more = known) (fun supply hn => ?_) fun more _ l hm => ?_
  · exact ⟨trivial, hn, rfl, fun hl => by cases hl⟩
  · subst hm
    exact hg l

/-- A statement with labels. -/
theorem labelled {stmt : Stmt} (typed : stmt.Typed)
    (reads : ∀ r ∈ stmt.reads, r.isTemp = true → r ∈ known)
    (named : ∀ r ∈ stmt.named, r.isTemp = false) (hq : S known ()) :
    Types true known S (Lift.emit stmt) := by
  have hknown : knownAfter known [stmt] = known := by
    simp [knownAfter, Stmt.temps_eq_nil named]
  intro supply hn
  exact ⟨⟨.of_named typed reads named, trivial⟩, hknown.symm ▸ hn, hknown.symm ▸ hq,
    fun hl => by cases hl⟩

theorem branch_bind {cond : Expr} {yes no : Label} (h : cond.HasWidth known .byte)
    (hu : Types true known R (u ())) :
    Types true known R (Lift.emit (.branch cond yes no) >>= u) :=
  keep_bind (labelled ⟨h.1, h.2.1⟩ h.2.2 (by simp [Stmt.named]) rfl) hu

theorem goto {l : Label} (hq : S known ()) : Types true known S (Lift.emit (.goto l)) :=
  labelled trivial (by simp [Stmt.reads]) (by simp [Stmt.named]) hq

theorem mark {l : Label} (hq : S known ()) : Types true known S (mark l) :=
  labelled trivial (by simp [Stmt.reads]) (by simp [Stmt.named]) hq

theorem mark_bind {l : Label} (hu : Types true known R (u ())) :
    Types true known R (Lift.mark l >>= u) :=
  keep_bind (mark rfl) hu

end Types

end Lift

end Tricore
