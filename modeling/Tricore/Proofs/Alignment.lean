import Mathlib
import Tricore.Proofs.Coverage
import Tricore.Proofs.FailedSteps

/-!
# Alignment of the program counter

From an even address, execution stays at even addresses (`pc_stays_even`). Instructions are two or
four bytes long, every way to make a target of a displacement counts half-words, and bit 0 of an
address that comes from a register is cleared. A return from the debug monitor does not clear it,
but traps before it returns. What is left is an instruction that writes the program counter as a
special function register (`Instruction.WritesPc`).
-/

namespace Tricore

theorem even_iff {a : Address} : Even a.toNat ↔ a.getLsbD 0 = false := by
  rw [Nat.even_iff, BitVec.getLsbD, Nat.testBit_zero, decide_eq_false_iff_not]
  omega

theorem even_add {a b : Address} (ha : Even a.toNat) (hb : Even b.toNat) : Even (a + b).toNat := by
  rw [Nat.even_iff] at ha hb ⊢
  rw [BitVec.toNat_add]
  omega

/-! ## Targets -/

/-- Whatever the format and the displacement, a branch at an even address has an even target. -/
theorem TargetKind.even_target (kind : TargetKind) (f : Format) {pc : Address} (disp : BitVec 24)
    (h : Even pc.toNat) : Even (kind.target f pc disp).toNat := by
  cases kind with
  | relative =>
    refine even_add h ?_
    rw [Nat.even_iff, BitVec.toNat_mul]
    show (signedDisp f disp).toNat * 2 % 2 ^ 32 % 2 = 0
    omega
  | relativeFar =>
    refine even_add h (even_iff.2 ?_)
    rw [BitVec.getLsbD_shiftLeft]
    rfl
  | loopBack =>
    refine even_add h (even_iff.2 ?_)
    rw [BitVec.getLsbD_or, BitVec.getLsbD_shiftLeft]
    rfl
  | absolute =>
    refine even_iff.2 ?_
    rw [target, BitVec.getLsbD_append]
    rfl

theorem OperandKind.even_of_resolve {k : OperandKind} {format : Format} {fields : Fields}
    {addr t : Address} (h : k.resolve format fields addr = .ok (.target t))
    (heven : Even addr.toNat) : Even t.toNat := by
  cases k with
  | target kind =>
    cases h
    exact kind.even_target format fields.disp heven
  | dataPair | addressPair => cases (of_pair_eq_ok h).2
  | based mode =>
    cases mode with
    | bitReverse | circular => cases (of_pair_eq_ok h).2
    | _ => cases h
  | _ => cases h

theorem Core.even_destination (c : Core) (r : Register) : Even (c.destination r).toNat := by
  refine even_iff.2 ?_
  rw [destination, BitVec.getLsbD_and, BitVec.getLsbD_not]
  simp

namespace Instruction

variable {isa : Isa} {bytes : List Byte} {addr : Address} {i : Instruction}

theorem even_target (h : decode isa bytes addr = .ok i) (heven : Even addr.toNat) {t : Address}
    (ht : .target t ∈ i.operands) : Even t.toNat := by
  obtain ⟨e, -, -, -, g, -, -, hos⟩ := of_decode h
  obtain ⟨k, -, hresolve⟩ := exists_of_mem_mapM hos ht
  exact k.even_of_resolve hresolve heven

theorem even_next (h : decode isa bytes addr = .ok i) (heven : Even addr.toNat) :
    Even i.next.toNat := by
  obtain ⟨e, -, haddr, hlength, -⟩ := of_decode h
  rw [next, haddr, hlength, Encoding.length]
  refine even_add heven ?_
  split <;> decide

theorem mem_operands_of_target? {t : Address} (h : i.target? = some t) :
    .target t ∈ i.operands := by
  obtain ⟨o, ho, hsome⟩ := List.exists_of_findSome?_eq_some h
  cases o with
  | target t' => cases hsome; exact ho
  | _ => cases hsome

/-- The direct edges of an instruction lead to its target. -/
theorem target?_of_mem_edges {t : Address}
    (h : .unconditional t ∈ i.edges ∨ .taken t ∈ i.edges ∨ .call t ∈ i.edges) :
    i.target? = some t := by
  unfold edges at h
  split at h
  case h_5 | h_6 => cases hr : i.firstRegister? <;> simp [hr] at h
  all_goals simp_all

/-- The edges of an instruction at an even address lead to even addresses. -/
theorem Follows.even {c : Core} {a : Address} (h : i.Follows c i.edges a)
    (hd : decode isa bytes addr = .ok i) (heven : Even addr.toNat) (hw : ¬i.WritesPc) :
    Even a.toNat := by
  have hnext := even_next hd heven
  have htarget {t : Address}
      (ht : .unconditional t ∈ i.edges ∨ .taken t ∈ i.edges ∨ .call t ∈ i.edges) :
      Even t.toNat :=
    even_target hd heven (mem_operands_of_target? (target?_of_mem_edges ht))
  generalize i.edges = es at h htarget
  cases h with
  | fall | untaken => exact hnext
  | write r ha ho => exact absurd ⟨ha, by simp [ho]⟩ hw
  | jump t => exact htarget (by simp)
  | call t => exact htarget (by simp)
  | branch t =>
    split
    · exact htarget (by simp)
    · exact hnext
  | jumpThrough r | callThrough r => exact c.even_destination r
  | ret => exact c.even_destination .link

end Instruction

/-! ## Steps -/

namespace Machine

variable {β : Type} [Bus β] {isa : Isa} {m : Machine β} {i : Instruction}

theorem step_finished (hi : m.instruction? isa = some i) : (m.step isa).2 ≠ .unfinished := by
  obtain ⟨bytes, hf, hd⟩ := instruction?_eq_some.1 hi
  obtain ⟨l, hsound, hlift⟩ := Instruction.laidOut hd
  obtain ⟨n, -, hlift⟩ := hlift .empty
  rw [step_eq hf hd hlift]
  exact (l.forward hsound i.next 0).execute_finished i.addr (m.start i)

/-- A step goes from an even address to an even address, whether it completes or traps. -/
theorem even_step (hi : m.instruction? isa = some i) (hw : ¬i.WritesPc)
    (heven : Even m.core.pc.toNat) : Even (m.step isa).1.core.pc.toNat := by
  obtain ⟨bytes, hf, hd⟩ := instruction?_eq_some.1 hi
  cases houtcome : (m.step isa).2 with
  | done => exact (Instruction.follows_step hf hd houtcome).even hd heven hw
  | trapped t =>
    rw [pc_step_of_trapped hf hd houtcome]
    exact Instruction.even_next hd heven
  | unfinished => exact absurd houtcome (step_finished hi)

end Machine

/-- As long as no instruction writes the program counter as a special function register, it stays
even over any number of steps, completed or trapped. The direct target of an instruction that is
decoded at an even address is even. -/
theorem pc_stays_even {β : Type} [Bus β] (isa : Isa) (m : Machine β) (n : Nat)
    (heven : Even m.core.pc.toNat)
    (hno : ∀ k < n, ∀ i, (m.after isa k).instruction? isa = some i → ¬i.WritesPc) :
    (∀ k ≤ n, Even (m.after isa k).core.pc.toNat) ∧
      ∀ bytes addr i t, Even addr.toNat → Instruction.decode isa bytes addr = .ok i →
        .target t ∈ i.operands → Even t.toNat := by
  refine ⟨?_, fun bytes addr i t haddr hd ht => Instruction.even_target hd haddr ht⟩
  exact Machine.after_keeps (P := fun m => Even m.core.pc.toNat)
    (fun k hk i hi h => Machine.even_step hi (hno k hk i hi) h) heven

/-- Odd addresses in all registers, and `ji a2` to a return from the debug monitor at `0x10`. -/
def oddRegisters : Machine Window where
  core := { a := .replicate 16 0x11 }
  bus :=
    let jump : Store := .putAll .empty 0 [0xDC, 0x02]
    { base := 0, size := 32, bytes := jump.putAll 0x10 [0x8D, 0x00, 0x40, 0x01] }

/-- The jump clears bit 0, and the return traps. -/
theorem pc_stays_even_odd_registers :
    (oddRegisters.step .v16).2 = .done ∧ (oddRegisters.after .v16 1).core.pc = 0x10 ∧
      ((oddRegisters.after .v16 1).step .v16).2 = .trapped (.unsupported 0x10 "restore_debug") ∧
      Even (oddRegisters.after .v16 2).core.pc.toNat := by
  have hno : ∀ k < 2, ((oddRegisters.after .v16 k).instruction? .v16).all
      (·.row.action != .writeCsfr) = true := by decide +kernel
  obtain ⟨heven, -⟩ := pc_stays_even .v16 oddRegisters 2 (by decide) fun k hk i hi hw => by
    simpa [hi, hw.1] using hno k hk
  exact ⟨by decide +kernel, by decide +kernel, by decide +kernel, heven 2 (Nat.le_refl 2)⟩

end Tricore
