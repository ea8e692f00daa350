import Mathlib
import Tricore.Memory.Window
import Tricore.Proofs.Plans

/-!
# Declared effects

The effects that an instruction declares are the only effects it has (`step_frame`). It declares
them in its statements, by the registers they name and the stores among them, and in its row, by
the flags. What is left out changes neither when the step completes nor when it traps halfway.
-/

namespace Tricore

namespace Register

/-- The registers that change only where a statement names them: data and address registers, the
context link, and the special function registers except interrupt control. -/
def Framed : Register → Prop
  | .d n | .a n => n < 16
  | .pcxi => True
  | .csfr offset => viewed? offset = none ∧ offset ≠ Core.icr
  | _ => False

theorem Framed.isCell {r : Register} (h : r.Framed) : r.IsCell := by
  cases r with
  | csfr => exact h.1
  | d | a => exact h
  | pcxi => trivial
  | _ => exact h.elim

end Register

theorem Core.read_canonical (c : Core) (r : Register) : c.read r.canonical = c.read r := by
  simp only [read, Register.canonical_canonical]

/-- The cells of all registers that statements name as written. -/
def namedCells (stmts : List Stmt) : List Register :=
  stmts.flatMap fun stmt => stmt.named.flatMap Register.cells

namespace Machine

variable {β : Type} [Bus β] {m : Machine β} {pc : Address} {stmts : List Stmt}
  {special : List Register} {fuel : Nat}

theorem read_run_of_framed (htame : ∀ stmt ∈ stmts, stmt.Tame special) {r : Register}
    (hr : r.Framed) (h : r ∉ namedCells stmts) :
    (m.run pc stmts fuel stmts).1.core.read r = m.core.read r := by
  have hicr : r ≠ .csfr Core.icr := by rintro rfl; exact hr.2 rfl
  refine read_run hr.isCell hicr fun stmt hs hw => ?_
  rcases (htame stmt hs).written hw with hn | ⟨rfl, -⟩ | ⟨rfl, -⟩
  · exact h (List.mem_flatMap.2 ⟨stmt, hs, hn⟩)
  · exact hr
  · exact hr

theorem psw_run (htame : ∀ stmt ∈ stmts, stmt.Tame special) (h : .psw ∉ namedCells stmts)
    {k : Nat} (hk : ∀ f, (flagsWritten stmts).contains f = true → f.bit ≠ k) :
    (m.run pc stmts fuel stmts).1.core.psw.getLsbD k = m.core.psw.getLsbD k := by
  refine run_keeps (P := fun m' => m'.core.psw.getLsbD k = m.core.psw.getLsbD k)
    (fun stmt hs m' hm => ?_) (List.Subset.refl _) rfl
  rw [← hm]
  refine Stmt.psw_exec (fun f hf => hk f ?_) fun hnone hw => ?_
  · rw [flagsWritten_eq]
    exact FlagSet.contains_ofList (List.mem_filterMap.2 ⟨stmt, hs, hf⟩)
  · rcases (htame stmt hs).written hw with hn | ⟨-, hsome⟩ | ⟨hpc, -⟩
    · exact h (List.mem_flatMap.2 ⟨stmt, hs, hn⟩)
    · rw [hnone] at hsome
      cases hsome
    · cases hpc

theorem bus_run (h : ∀ stmt ∈ stmts, stmt.stores = false) :
    (m.run pc stmts fuel stmts).1.bus = m.bus :=
  run_keeps (P := fun m' => m'.bus = m.bus)
    (fun stmt hs _ hm => (Stmt.bus_exec (h stmt hs)).trans hm) (List.Subset.refl _) rfl

end Machine

/-- A step changes no more than the instruction declares, whether it completes or traps: registers
that its statements name, status bits of flags in its row, and memory only by its stores. -/
theorem step_frame {β : Type} [Bus β] (isa : Isa) (m : Machine β) {bytes : List Byte}
    {i : Instruction} (hf : Machine.fetch m.bus m.core.pc = .ok bytes)
    (hd : Instruction.decode isa bytes m.core.pc = .ok i) :
    ∃ t, i.lift .empty = .ok t ∧
      (∀ r : Register, r.canonical.Framed → r.canonical ∉ namedCells t.stmts →
        (m.step isa).1.core.read r = m.core.read r) ∧
      (.psw ∉ namedCells t.stmts → ∀ k, (∀ f, i.row.flags.contains f = true → f.bit ≠ k) →
        (m.step isa).1.core.psw.getLsbD k = m.core.psw.getLsbD k) ∧
      ((∀ stmt ∈ t.stmts, stmt.stores = false) → (m.step isa).1.bus = m.bus) := by
  obtain ⟨t, hl, hstep, htame, hflags⟩ := Machine.step_of_decode hf hd
  refine ⟨t, hl, ?_⟩
  rw [hstep]
  refine ⟨fun r hr hn => ?_, fun hn k hk => ?_, fun hs => Machine.bus_run hs⟩
  · have hstart : (m.start i).core.read r.canonical = m.core.read r.canonical := by
      refine Machine.read_start hr.isCell ?_ fun n => ⟨?_, ?_⟩ <;> intro hc <;>
        rw [hc] at hr <;> exact hr
    rw [← Core.read_canonical, ← Core.read_canonical _ r, Machine.read_run_of_framed htame hr hn, hstart]
  · rw [Machine.psw_run htame hn (hflags ▸ hk)]
    rfl

/-- A load that faults: `ld.w d0, [a2+]4` from address 8 of a window of four bytes. -/
def loadOutside : Machine Window where
  core := { a := .replicate 16 8 }
  bus := { base := 0, size := 4, bytes := .putAll .empty 0 [0x09, 0x20, 0x04, 0x01] }

theorem step_frame_load :
    (loadOutside.step .v16).2 = .trapped (.bus 8 (.outside 8 4)) ∧
      (loadOutside.step .v16).1.core.read (.csfr 0xFF1C) = 0 ∧
      (loadOutside.step .v16).1.bus = loadOutside.bus := by
  have hf : Machine.fetch loadOutside.bus loadOutside.core.pc =
      .ok [0x09, 0x20, 0x04, 0x01] := by decide +kernel
  -- What the instruction declares, from its statements.
  have hdeclared : ∃ i, Instruction.decode .v16 [0x09, 0x20, 0x04, 0x01] loadOutside.core.pc = .ok i ∧
      ∀ t, i.lift .empty = .ok t →
        .d 7 ∉ namedCells t.stmts ∧ ∀ stmt ∈ t.stmts, stmt.stores = false := by
    refine ⟨_, rfl, fun t ht => ?_⟩
    cases ht
    decide
  obtain ⟨i, hd, hi⟩ := hdeclared
  obtain ⟨t, hl, hregs, -, hbus⟩ := step_frame .v16 loadOutside hf hd
  exact ⟨by decide +kernel, hregs (.csfr 0xFF1C) (show 7 < 16 by decide) (hi t hl).1, hbus (hi t hl).2⟩

end Tricore
