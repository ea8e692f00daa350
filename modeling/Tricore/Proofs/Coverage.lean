import Mathlib
import Tricore.Memory.Window
import Tricore.Proofs.Exploration
import Tricore.Proofs.Successor

/-!
# Steps inside a graph

A search that ended by itself has seen where execution goes on: a step from a decoded address of its
graph, over a memory with the image's bytes, leads to a visited address if it leads to a mapped one
(`explore_covers_steps`). Control that goes through a register, through the saved link, or to a
program counter written as a special function register is not followed; and a trap on a flag has
no links, although execution goes on after it while the flag is clear (`untaken_trap_leaves_graph`).
-/

namespace Tricore

/-! ## Bytes in memory -/

/-- Memory has these bytes from an address on. -/
def HasBytes {β : Type} [Bus β] (bus : β) : Address → List Byte → Prop
  | _, [] => True
  | addr, b :: bytes => Bus.readByte bus addr = .ok b ∧ HasBytes bus (addr + 1) bytes

instance HasBytes.decide {β : Type} [Bus β] (bus : β) :
    (addr : Address) → (bytes : List Byte) → Decidable (HasBytes bus addr bytes)
  | _, [] => .isTrue trivial
  | addr, b :: bytes =>
    let _ := HasBytes.decide bus (addr + 1) bytes
    inferInstanceAs (Decidable (Bus.readByte bus addr = .ok b ∧ HasBytes bus (addr + 1) bytes))

section Fetch

variable {β : Type} [Bus β] {bus : β} {addr : Address} {bytes : List Byte}

theorem take_readable {n : Nat} (h : HasBytes bus addr bytes) (hn : bytes.length ≤ n) :
    (Machine.readable bus addr n).take bytes.length = bytes := by
  induction bytes generalizing addr n with
  | nil => rfl
  | cons b bytes ih =>
    obtain ⟨hb, hrest⟩ := h
    cases n with
    | zero => cases hn
    | succ n =>
      rw [Machine.readable, hb, List.length_cons, List.take_succ_cons]
      rw [ih hrest (Nat.le_of_succ_le_succ hn)]

theorem take_fetch (h : HasBytes bus addr bytes) (hpos : 0 < bytes.length)
    (hlen : bytes.length ≤ 4) :
    ∃ fetched, Machine.fetch bus addr = .ok fetched ∧ fetched.take bytes.length = bytes := by
  refine ⟨Machine.readable bus addr 4, ?_, take_readable h hlen⟩
  cases bytes with
  | nil => cases hpos
  | cons b bytes =>
    simp only [Machine.fetch, Machine.readable, h.1]
    rfl

end Fetch

namespace Instruction

variable {isa : Isa} {addr : Address} {bytes bytes' : List Byte} {i : Instruction}

/-- An encoding is read from its own bytes. -/
theorem encodingOf_take {e : Encoding} (h : encodingOf bytes = .ok e) (rest : List Byte) :
    e.length ≤ bytes.length ∧ encodingOf (bytes.take e.length ++ rest) = .ok e := by
  unfold encodingOf at h
  split at h
  · split at h
    · next hlong =>
      split at h
      · cases h
        simp [Encoding.length, encodingOf, hlong]
      · cases h
    · next hshort =>
      cases h
      exact ⟨by simp [Encoding.length], if_neg hshort⟩
  · cases h

theorem length_of_decode_le (h : decode isa bytes addr = .ok i) :
    0 < i.length ∧ i.length ≤ 4 ∧ i.length ≤ bytes.length := by
  obtain ⟨e, he, -, hlen, -⟩ := of_decode h
  rw [hlen]
  refine ⟨?_, ?_, (encodingOf_take he []).1⟩ <;> unfold Encoding.length <;> split <;> omega

theorem decode_congr (h : decode isa bytes addr = .ok i)
    (htake : bytes'.take i.length = bytes.take i.length) : decode isa bytes' addr = .ok i := by
  obtain ⟨e, he, -, hlen, -⟩ := of_decode h
  have he' : encodingOf bytes' = .ok e := by
    rw [← List.take_append_drop e.length bytes', ← hlen, htake, hlen]
    exact (encodingOf_take he _).2
  simp only [decode, he] at h
  simpa only [decode, he'] using h

/-- The instruction of an image is the one that is fetched from a memory with its bytes. -/
theorem fetched_of_hasBytes {β : Type} [Bus β] {bus : β} (h : decode isa bytes addr = .ok i)
    (hbytes : HasBytes bus addr (bytes.take i.length)) :
    ∃ fetched, Machine.fetch bus addr = .ok fetched ∧ decode isa fetched addr = .ok i := by
  obtain ⟨hpos, hfour, hle⟩ := length_of_decode_le h
  have hlen : (bytes.take i.length).length = i.length := List.length_take_of_le hle
  obtain ⟨fetched, hf, htake⟩ := take_fetch hbytes (by omega) (by omega)
  rw [hlen] at htake
  exact ⟨fetched, hf, decode_congr h htake⟩

/-! ## Edges and links -/

variable {c : Core} {q : Address}

/-- An instruction with such an edge has the class of control flow to match. -/
theorem flow_of_mem_edges :
    (∀ r, .indirect r ∈ i.edges → i.row.action.flow = .indirect) ∧
    (∀ r, .indirectCall r ∈ i.edges → i.row.action.flow = .indirectCall) ∧
    (.ret ∈ i.edges → i.row.action.flow = .ret) := by
  unfold edges
  split
  case h_5 | h_6 => cases i.firstRegister? <;> simp_all
  all_goals simp_all

/-- The classes of control flow whose links do not tell where control goes. -/
def dynamicFlows : List Flow := [.indirect, .indirectCall, .ret]

/-- Does the instruction write the program counter as a special function register? -/
def WritesPc (i : Instruction) : Prop := i.row.action = .writeCsfr ∧ .csfr pcOffset ∈ i.operands

/-- A link leads to where the edges lead, unless they are those of a trap. -/
theorem Follows.exists_link (h : i.Follows c i.edges q) (hdirect : i.row.action.flow ∉ dynamicFlows)
    (hpc : ¬ i.WritesPc) (hflow : i.row.action.flow ≠ .unresolved) :
    ∃ l ∈ (CodeGraph.Found.mk i.addr i.length i.edges).links, l.target = q := by
  obtain ⟨hjump, hcall, hret⟩ := flow_of_mem_edges (i := i)
  unfold CodeGraph.Found.links
  dsimp only
  generalize i.edges = es at h hjump hcall hret ⊢
  cases h with
  | fall => exact ⟨_, List.mem_singleton_self _, rfl⟩
  | write r ha ho => exact absurd ⟨ha, by simp [ho]⟩ hpc
  | jump t => exact ⟨_, List.mem_singleton_self _, rfl⟩
  | call t => exact ⟨_, List.mem_cons_self, rfl⟩
  | branch t =>
    cases hcond : i.condition c with
    | true => exact ⟨_, List.mem_cons_self, by simp⟩
    | false => exact ⟨_, List.mem_cons_of_mem _ List.mem_cons_self, by simp⟩
  | jumpThrough r => simp [dynamicFlows, hjump r List.mem_cons_self] at hdirect
  | callThrough r => simp [dynamicFlows, hcall r List.mem_cons_self] at hdirect
  | ret => simp [dynamicFlows, hret List.mem_cons_self] at hdirect
  | untaken f ha => exact absurd (ha ▸ rfl) hflow

/-- Execution goes on after a trap that is not taken, and no link says so. -/
theorem Follows.of_unresolved (h : i.Follows c i.edges q)
    (hflow : i.row.action.flow = .unresolved) :
    q = i.next ∧ (CodeGraph.Found.mk i.addr i.length i.edges).links = [] := by
  have hedges : i.edges = [.unresolved] := by
    rw [edges, hflow]
  rw [hedges] at h ⊢
  cases h with
  | untaken f ha => exact ⟨rfl, rfl⟩

end Instruction

/-! ## Steps -/

namespace CodeGraph

/-- A step from a decoded address, over a memory with the image's bytes of the instruction there,
goes on at a visited address if that is mapped. The instruction neither transfers control through a
register or the saved link nor writes the program counter; a trap on a flag, the one class with an
unresolved edge, goes on after itself although the graph has no link from it. -/
theorem explore_covers_steps {β : Type} [Bus β] (isa : Isa) (img : Image) (entries : List Address)
    (budget : Nat) (hbudget : (explore isa img entries budget).widths.size < budget)
    (m : Machine β) {w : Nat}
    (hwidth : (explore isa img entries budget).widths[m.core.pc]? = some w)
    (hbytes : HasBytes m.bus m.core.pc ((img.code m.core.pc).take w))
    (hdone : (m.step isa).2 = .done) (hmapped : img.isMapped (m.step isa).1.core.pc = true)
    {i : Instruction} (hi : Instruction.decode isa (img.code m.core.pc) m.core.pc = .ok i)
    (hdirect : i.row.action.flow ∉ Instruction.dynamicFlows) (hpc : ¬ i.WritesPc) :
    (i.row.action.flow ≠ .unresolved →
      (m.step isa).1.core.pc ∈ (explore isa img entries budget).visited) ∧
    (i.row.action.flow = .unresolved → (m.step isa).1.core.pc = i.next ∧
      ∀ l ∈ (explore isa img entries budget).links, l.source ≠ m.core.pc) := by
  have hacc := accurate_explore isa img entries budget
  have hfound := found?_eq_some.2 ⟨i, hi, rfl⟩
  obtain ⟨hvisited, j, hj, rfl⟩ := hacc.width_eq_some.1 hwidth
  obtain rfl := Option.some.inj (hfound.symm.trans hj)
  -- What the machine fetches may go on after the instruction in another way than the image does.
  obtain ⟨fetched, hf, hd⟩ := Instruction.fetched_of_hasBytes hi hbytes
  have hfollows := Instruction.follows_step hf hd hdone
  have haddr : i.addr = m.core.pc := by
    obtain ⟨e, -, haddr, -⟩ := Instruction.of_decode hi
    exact haddr
  have hlinks := linksAt_of_found? hfound
  rw [← haddr] at hlinks hvisited
  refine ⟨fun hflow => ?_, fun hflow => ?_⟩
  · obtain ⟨l, hl, htarget⟩ := hfollows.exists_link hdirect hpc hflow
    rw [← hlinks] at hl
    rw [← htarget] at hmapped ⊢
    exact (closed_explore hbudget).link _ hvisited l hl hmapped
  · obtain ⟨hnext, hnone⟩ := hfollows.of_unresolved hflow
    refine ⟨hnext, fun l hl hsource => ?_⟩
    have hmem := (hacc.mem_links.1 hl).2
    rw [hsource, ← haddr, hlinks, hnone] at hmem
    cases hmem

/-- `jz d15, 4`, a return after it, and a return at its target. -/
def branchOverReturn : Image := [{ base := 0, bytes := #[0x6E, 0x02, 0x00, 0x90, 0x00, 0x90] }]

/-- A machine at address 0 of a memory with the bytes of an image. -/
def machineAt (img : Image) (size : Nat) : Machine Window where
  core := {}
  bus := { base := 0, size, bytes := .putAll .empty 0 (img.window 0 size) }

theorem explore_covers_steps_jz :
    (explore .v16 branchOverReturn [0] 10).widths.size < 10 ∧
      ((machineAt branchOverReturn 6).step .v16).1.core.pc = 4 ∧
      4 ∈ (explore .v16 branchOverReturn [0] 10).visited := by
  have hbudget : (explore .v16 branchOverReturn [0] 10).widths.size < 10 := by decide +kernel
  have hbranch : ∃ i, Instruction.decode .v16 (branchOverReturn.code 0) 0 = .ok i ∧
      i.row.action = .branch .eq := ⟨_, rfl, rfl⟩
  obtain ⟨i, hi, ha⟩ := hbranch
  have hflow : i.row.action.flow = .conditional := by rw [ha]; rfl
  have hpc : ((machineAt branchOverReturn 6).step .v16).1.core.pc = 4 := by decide +kernel
  have hcovers := explore_covers_steps .v16 branchOverReturn [0] 10 hbudget
    (machineAt branchOverReturn 6) (w := 2) (by decide +kernel) (by decide +kernel)
    (by decide +kernel) (by decide +kernel) hi (by rw [hflow]; decide)
    (by simp [Instruction.WritesPc, ha])
  have hvisited := hcovers.1 (by rw [hflow]; decide)
  exact ⟨hbudget, hpc, hpc ▸ hvisited⟩

/-- `trapv` and a return after it. -/
def trapThenReturn : Image := [{ base := 0, bytes := #[0x0D, 0x00, 0x00, 0x05, 0x00, 0x90] }]

/-- While the overflow flag is clear, `trapv` goes on at the return after it, and a search from the
trap does not visit that. -/
theorem untaken_trap_leaves_graph :
    let m := machineAt trapThenReturn 6
    let g := explore .v16 trapThenReturn [0] 10
    g.widths.size < 10 ∧ g.widths[m.core.pc]? = some 4 ∧
      HasBytes m.bus m.core.pc ((trapThenReturn.code m.core.pc).take 4) ∧
      (m.step .v16).2 = .done ∧ trapThenReturn.isMapped (m.step .v16).1.core.pc = true ∧
      (∃ i, Instruction.decode .v16 (trapThenReturn.code m.core.pc) m.core.pc = .ok i ∧
        i.row.action = .trapOn .v) ∧
      (m.step .v16).1.core.pc ∉ g.visited := by
  refine ⟨?_, ?_, ?_, ?_, ?_, ⟨_, rfl, rfl⟩, ?_⟩ <;> decide +kernel

end CodeGraph

end Tricore
