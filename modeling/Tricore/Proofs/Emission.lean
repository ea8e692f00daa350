import Mathlib
import Tricore.Proofs.Footprint
import Tricore.Proofs.Signature

/-!
# What is emitted

`Emits` is a triple for emissions: whatever the supply of labels and temporaries, the value has a
property, the flags written are the listed ones, in order, and every statement is tame. A tame
statement names the registers it writes, writes no special register that is not listed, and adds to
a sticky flag only. There is one rule for each way to build an emission.
-/

namespace Tricore

theorem flagsWritten_eq (stmts : List Stmt) :
    flagsWritten stmts = .ofList (stmts.filterMap Stmt.flag?) := by
  unfold flagsWritten FlagSet.ofList
  generalize FlagSet.empty = s
  induction stmts generalizing s with
  | nil => rfl
  | cons stmt stmts ih => cases stmt <;> simp [List.filterMap_cons, Stmt.flag?, ih]

namespace Register

/-- The register holds core state: it is neither for general purpose nor a temporary. -/
def isSpecial : Register → Bool
  | psw | pc | pcxi | csfr _ => true
  | _ => false

/-- Of the special registers, writing `r` changes listed ones only. -/
def Within (special : List Register) (r : Register) : Prop :=
  ∀ x ∈ r.cells, x.isSpecial = true → x ∈ special

theorem Within.of_mem {special : List Register} {r : Register} (hc : r.cells = [r])
    (h : r ∈ special) : r.Within special := by
  intro x hx _
  rw [hc, List.mem_singleton] at hx
  rwa [hx]

theorem Ordinary.of_mem_cells {r x : Register} (h : r.Ordinary) (hx : x ∈ r.cells) :
    x.Ordinary := by
  cases r with
  | d | a | e | p =>
    simp only [cells, canonical, List.mem_cons, List.not_mem_nil, or_false] at hx
    rcases hx with rfl | rfl <;> exact fun hs => by cases hs
  | _ => exact absurd rfl h

theorem Ordinary.pc_not_mem {r : Register} (h : r.Ordinary) : .pc ∉ r.cells :=
  fun hx => h.of_mem_cells hx rfl

theorem Ordinary.within {r : Register} (h : r.Ordinary) (special : List Register) :
    r.Within special := by
  intro x hx hs
  have ho := h.of_mem_cells hx
  cases x with
  | psw | pc | pcxi | csfr => exact absurd rfl ho
  | _ => cases hs

end Register

/-- The flag that a sticky flag collects. -/
def Flag.source? : Flag → Option Flag
  | sv => some v
  | sav => some av
  | _ => none

namespace Stmt

/-- The registers that a statement names as written. -/
def named : Stmt → List Register
  | setReg r _ => [r]
  | intrinsic _ outputs _ => outputs
  | _ => []

/-- The statement names the registers that it writes, of the special registers it writes listed ones
only, and sticky flags are set where their source is. -/
def Tame (special : List Register) : Stmt → Prop
  | setReg r _ => r.Within special
  | setFlag f value => ∀ source, f.source? = some source →
    value = .or .byte (.flag f) (.flag source)
  | jump _ | call _ | ret _ => .pc ∈ special
  | intrinsic i outputs _ => i.implied ⊆ outputs ∧ ∀ r ∈ outputs, r.Within special
  | _ => True

variable {stmt : Stmt} {special : List Register}

theorem cells_of_implied {i : Intrinsic} {x : Register} (h : x ∈ i.implied) : x.cells = [x] := by
  cases i with
  | saveUpperContext | saveLowerContext | bisr => rw [List.mem_singleton.1 h]; rfl
  | restoreUpperContext | loadUpperContext => exact Core.layout_isCell .upper x h
  | restoreLowerContext | loadLowerContext => exact Core.layout_isCell .lower x h
  | _ => cases h

/-- A tame statement writes what it names, its flag, and where to go on. -/
theorem Tame.written (h : stmt.Tame special) {x : Register} (hx : x ∈ stmt.written) :
    x ∈ stmt.named.flatMap Register.cells ∨ x = .psw ∧ stmt.flag?.isSome ∨
      x = .pc ∧ .pc ∈ special := by
  cases stmt with
  | setReg r value => exact .inl (by simpa [named, written] using hx)
  | setFlag f value => exact .inr (.inl ⟨List.mem_singleton.1 hx, rfl⟩)
  | jump | call | ret => exact .inr (.inr ⟨List.mem_singleton.1 hx, h⟩)
  | intrinsic i outputs inputs =>
    rcases List.mem_append.1 hx with hi | ho
    · have hmem : x ∈ x.cells := by simp [cells_of_implied hi]
      exact .inl (List.mem_flatMap.2 ⟨x, h.1 hi, hmem⟩)
    · exact .inl ho
  | store | branch | goto | mark | nop | undefined => cases hx

/-- What a tame statement names is general purpose, temporary or listed. -/
theorem Tame.named (h : stmt.Tame special) {r : Register} (hr : r ∈ stmt.named) :
    r.Within special := by
  cases stmt with
  | setReg r' value => exact List.mem_singleton.1 hr ▸ h
  | intrinsic i outputs inputs => exact h.2 r hr
  | _ => cases hr

/-- A special register that is written is listed, except for the status word of a flag. -/
theorem Tame.listed (h : stmt.Tame special) {x : Register} (hx : x ∈ stmt.written)
    (hs : x.isSpecial = true) : x ∈ special ∨ x = .psw ∧ stmt.flag?.isSome := by
  rcases h.written hx with hn | hf | ⟨rfl, hpc⟩
  · obtain ⟨r, hr, hc⟩ := List.mem_flatMap.1 hn
    exact .inl (h.named hr x hc hs)
  · exact .inr hf
  · exact .inl hpc

theorem Tame.pc_not_written (h : stmt.Tame special) (hpc : .pc ∉ special) :
    .pc ∉ stmt.written := fun hx => by
  rcases h.listed hx rfl with hs | ⟨hp, -⟩
  · exact hpc hs
  · cases hp

end Stmt

namespace Lift

variable {α β : Type} {special : List Register} {fs gs : List Flag}

/-- The value has the property, the statements write the flags in order, and all of them are
tame. -/
structure Emits (special : List Register) (fs : List Flag) (Q : α → Prop) (e : Emit α) : Prop where
  value : ∀ supply, Q (e supply).1
  flags : ∀ supply, (e supply).2.1.filterMap Stmt.flag? = fs
  tame : ∀ supply, ∀ stmt ∈ (e supply).2.1, stmt.Tame special

namespace Emits

variable {Q : α → Prop} {R : β → Prop} {x : Emit α} {f : α → Emit β}

theorem pure {a : α} (h : Q a) : Emits special [] Q (Pure.pure a) where
  value _ := h
  flags _ := rfl
  tame _ _ hs := nomatch hs

theorem bind (hx : Emits special fs Q x) (hf : ∀ a, Q a → Emits special gs R (f a)) :
    Emits special (fs ++ gs) R (x >>= f) where
  value supply := (hf _ (hx.value supply)).value _
  flags supply := by
    refine (List.filterMap_append ..).trans ?_
    rw [hx.flags supply, (hf _ (hx.value supply)).flags]
  tame supply stmt hs := by
    rcases List.mem_append.1 hs with hs | hs
    · exact hx.tame supply stmt hs
    · exact (hf _ (hx.value supply)).tame _ stmt hs

/-- What comes first writes no flag. -/
theorem quiet_bind (hx : Emits special [] Q x) (hf : ∀ a, Q a → Emits special gs R (f a)) :
    Emits special gs R (x >>= f) := hx.bind hf

/-- What follows writes no flag. -/
theorem bind_quiet (hx : Emits special fs Q x) (hf : ∀ a, Q a → Emits special [] R (f a)) :
    Emits special fs R (x >>= f) := by
  simpa using hx.bind hf

theorem mapM {g : β → Emit α} {bs : List β} (h : ∀ b ∈ bs, Emits special [] Q (g b)) :
    Emits special [] (fun as => as.length = bs.length ∧ ∀ a ∈ as, Q a) (bs.mapM g) := by
  suffices hloop : ∀ acc : List α, (∀ a ∈ acc, Q a) → Emits special []
      (fun as => as.length = acc.length + bs.length ∧ ∀ a ∈ as, Q a) (List.mapM.loop g bs acc) by
    simpa [List.mapM] using hloop [] (by simp)
  induction bs with
  | nil => exact fun acc hacc => pure (by simpa using hacc)
  | cons b bs ih =>
    intro acc hacc
    refine quiet_bind (h b (by simp)) fun a ha => ?_
    have hih := ih (fun b' hb => h b' (by simp [hb])) (a :: acc) (by simpa [ha] using hacc)
    simpa [Nat.add_assoc, Nat.add_comm 1] using hih

theorem emit {stmt : Stmt} (h : stmt.Tame special) (hf : stmt.flag? = none) :
    Emits special [] (fun _ => True) (emit stmt) where
  value _ := trivial
  flags _ := by simp [Lift.emit, hf]
  tame _ _ hs := by rwa [List.mem_singleton.1 hs]

theorem emitAll {stmts : List Stmt} (h : ∀ stmt ∈ stmts, stmt.Tame special) :
    Emits special (stmts.filterMap Stmt.flag?) (fun _ => True) (emitAll stmts) where
  value _ := trivial
  flags _ := rfl
  tame _ := h

theorem set {r : Register} {v : Expr} (h : r.Ordinary) :
    Emits special [] (fun _ => True) (set r v) := emit (h.within special) rfl

theorem store {w : Width} {addr v : Expr} : Emits special [] (fun _ => True) (store w addr v) :=
  emit trivial rfl

theorem mark {l : Label} : Emits special [] (fun _ => True) (mark l) := emit trivial rfl

theorem intrinsic {i : Intrinsic} {outputs : List Register} {inputs : List Expr}
    (hi : i.implied ⊆ outputs) (ho : ∀ r ∈ outputs, r.Within special) :
    Emits special [] (fun _ => True) (intrinsic i outputs inputs) := emit ⟨hi, ho⟩ rfl

theorem temp {v : Expr} : Emits special [] (fun _ => True) (temp v) where
  value _ := trivial
  flags _ := rfl
  tame supply stmt hs := by
    rw [List.mem_singleton.1 hs]
    intro x hx hspecial
    have hcells : x.isSpecial = false := by
      cases hw : v.width <;> rw [hw] at hx <;> rw [List.mem_singleton.1 hx] <;> rfl
    rw [hcells] at hspecial
    cases hspecial

/-- A temporary may be used in whatever follows. -/
theorem temp_bind {v : Expr} {f : Expr → Emit β} (hf : ∀ e, Emits special gs R (f e)) :
    Emits special gs R (Lift.temp v >>= f) :=
  quiet_bind temp fun e _ => hf e

theorem newLabel : Emits special [] (fun _ => True) newLabel where
  value _ := trivial
  flags _ := rfl
  tame _ _ hs := nomatch hs

theorem labelAt? {addr : Address} : Emits special [] (fun _ => True) (labelAt? addr) where
  value _ := trivial
  flags _ := rfl
  tame _ _ hs := nomatch hs

/-- A flag that is not sticky takes any value. -/
theorem setFlag {g : Flag} {v : Expr} (h : g.source? = none) :
    Emits special [g] (fun _ => True) (setFlag g v) where
  value _ := trivial
  flags _ := rfl
  tame _ _ hs := by
    rw [List.mem_singleton.1 hs]
    intro source hsource
    rw [h] at hsource
    cases hsource

theorem sticky {g source : Flag} (h : g.source? = some source) :
    Emits special [g] (fun _ => True) (sticky g source) where
  value _ := trivial
  flags _ := rfl
  tame _ _ hs := by
    rw [List.mem_singleton.1 hs]
    intro source' hsource
    rw [h] at hsource
    cases hsource
    rfl

theorem overflowStatus {v av : Expr} :
    Emits special [.v, .sv, .av] (fun _ => True) (overflowStatus v av) :=
  (setFlag rfl).bind fun _ _ => (sticky rfl).bind fun _ _ => setFlag rfl

theorem status {v av : Expr} :
    Emits special [.v, .sv, .av, .sav] (fun _ => True) (status v av) :=
  overflowStatus.bind fun _ _ => sticky rfl

/-- The status is written first, and then the result. -/
theorem status_set {v av e : Expr} {r : Register} (h : r.Ordinary) :
    Emits special [.v, .sv, .av, .sav] (fun _ => True) (do Lift.status v av; Lift.set r e) :=
  bind_quiet status fun _ _ => set h

end Emits

end Lift

end Tricore
