import Mathlib
import Tricore.Proofs.Frugality
import Tricore.Proofs.MemoryAccess

/-!
# Accesses in bit-reversed order

The high register of a pair is the index, and it is read twice: for the address before the access,
and again after it, to be stepped. A store writes no register, so its index is stepped from what it
was (`Machine.StoresReversed`). So is the index of a load, unless the load writes the register that
it is in: then the word that was loaded is stepped, and the index that gave the address is lost
(`Machine.LoadsReversed`, `reversed_accesses_step_index`).

In the other modes, no load can disturb the update that follows it.
-/

namespace Tricore

/-- The low register of the pair, and the low half of the high one. -/
def Core.reversedAddress (c : Core) (n : Nat) : Address :=
  Operand.word c (.reg (.a n)) + ((Operand.word c (.reg (.a (n + 1)))).setWidth 16).setWidth 32

theorem Place.address_bitReverse (c : Core) (n : Nat) :
    address c (.bitReverse (.p n)) = c.reversedAddress n := by
  rw [address, Core.read_pair, Ring.ofPair_append]
  rfl

namespace Machine

/-- What a load leaves whose address and index are in the pair at `n`. -/
structure LoadsReversed (m : Machine Window) (kind : Access) (n : Nat) (dst : Register)
    (m' : Machine Window) : Prop where
  memory : m'.bus = m.bus
  value : ∀ k x, dst.cells[k]? = some x → x ≠ .a (n + 1) →
    m'.core.read x = ((kind.loaded (m.bus.number (m.core.reversedAddress n) kind.width.bytes)
      >>> (32 * k)).setWidth 32).setWidth 64
  kept : .a (n + 1) ∉ dst.cells →
    m'.core.read (.a (n + 1)) =
      (bitReverseStep (Operand.word m.core (.reg (.a (n + 1))))).setWidth 64
  overwritten : ∀ k, dst.cells[k]? = some (.a (n + 1)) →
    m'.core.read (.a (n + 1)) = (bitReverseStep ((kind.loaded
      (m.bus.number (m.core.reversedAddress n) kind.width.bytes) >>> (32 * k)).setWidth
        32)).setWidth 64
  others : ∀ x : Register, x.Persistent → x ∉ dst.cells → x ≠ .a (n + 1) →
    m'.core.read x = m.core.read x

/-- What such a store leaves. -/
structure StoresReversed (m : Machine Window) (kind : Access) (n : Nat) (src : Register)
    (m' : Machine Window) : Prop where
  memory : m.bus.Receives (m.core.reversedAddress n) kind.width.bytes
    (kind.stored (m.core.read src)) m'.bus
  index : m'.core.read (.a (n + 1)) =
    (bitReverseStep (Operand.word m.core (.reg (.a (n + 1))))).setWidth 64
  others : ∀ x : Register, x.Persistent → x ≠ .a (n + 1) → m'.core.read x = m.core.read x

variable {m m' : Machine Window} {kind : Access} {n : Nat} {r : Register}

theorem mem_touched (c : Core) {x : Register} (hn : n + 1 < 16) :
    x ∈ Place.touched c (.bitReverse (.p n)) ↔ x = .a (n + 1) := by
  show x ∈ [Register.a ((n + 1) % 16)] ↔ x = .a (n + 1)
  rw [List.mem_singleton, Nat.mod_eq_of_lt hn]

theorem Stores.reversed (hn : n + 1 < 16) (h : m.Stores kind (.bitReverse (.p n)) r m') :
    m.StoresReversed kind n r m' where
  memory := Place.address_bitReverse m.core n ▸ h.memory
  index := h.registers.update (.a (n + 1)) _ rfl
  others x hx hne := h.registers.others x hx List.not_mem_nil fun ht =>
    hne ((mem_touched m.core hn).1 ht)

theorem LoadsFirst.reversed (h : m.LoadsFirst kind (.bitReverse (.p n)) r m') (hn : n + 1 < 16)
    (hr : r.Ordinary) : m.LoadsReversed kind n r m' := by
  obtain ⟨_, _, m₁, m₂, hm, hm₂, hm'⟩ := h
  rw [Place.address_bitReverse] at hm₂
  have hindex : (Register.a (n + 1)).Persistent := ⟨hn, nofun, fun _ => ⟨nofun, nofun⟩⟩
  have hstep : m'.core.read (.a (n + 1)) =
      (bitReverseStep (Operand.word m₂.core (.reg (.a (n + 1))))).setWidth 64 := by
    rw [hm']
    exact read_updated_self m₂ (n + 1) _
  have hothers {x : Register} (hx : x.IsCell) (hne : x ≠ .a (n + 1)) :
      m'.core.read x = m₂.core.read x := by
    rw [hm']
    exact read_updated hx fun ht => hne ((mem_touched m₂.core hn).1 ht)
  -- The index that is stepped is the one in `m₂`, where the register of the load is written.
  have hkept {x : Register} (hx : x.Persistent) (hnot : x ∉ r.cells) :
      m₂.core.read x = m.core.read x := by
    rw [hm₂]
    exact (Core.read_write hx.1 hnot).trans (hm.read hx)
  have hcell {k : Nat} {x : Register} (hk : r.cells[k]? = some x) :
      m₂.core.read x = ((kind.loaded (m.bus.number (m.core.reversedAddress n) kind.width.bytes)
        >>> (32 * k)).setWidth 32).setWidth 64 := by
    rw [hm₂]
    exact Core.read_write_cell _ hr _ hk
  refine ⟨?_, fun k x hk hne => ?_, fun hnot => ?_, fun k hk => ?_, fun x hx hnot hne => ?_⟩
  · rw [hm', bus_updated, hm₂]
    exact hm.grows.bus
  · exact (hothers (hr.isCell (List.mem_of_getElem? hk)) hne).trans (hcell hk)
  · rw [hstep, Operand.word, Operand.value, hkept hindex hnot]
    rfl
  · rw [hstep, Operand.word, Operand.value, hcell hk,
      BitVec.setWidth_setWidth_of_le _ (by decide), BitVec.setWidth_eq]
  · exact (hothers hx.1 hne).trans (hkept hx hnot)

theorem LoadsReversed.of_start {i : Instruction} (h : (m.start i).LoadsReversed kind n r m') :
    m.LoadsReversed kind n r m' where
  memory := h.memory
  value := h.value
  kept := h.kept
  overwritten := h.overwritten
  others x hx hnot hne := (h.others x hx hnot hne).trans (read_start hx.1 hx.2.1 hx.2.2)

end Machine

/-- A pair of a decoded operand has both of its registers. -/
theorem Instruction.pair_present {isa : Isa} {m : Machine Window} {i : Instruction}
    (hi : m.instruction? isa = some i) {p : Place} {n : Nat}
    (hops : .place p ∈ i.operands) (hp : p.register? = some (.p n)) : n % 2 = 0 ∧ n + 1 < 16 := by
  obtain ⟨bytes, -, hd⟩ := Machine.instruction?_eq_some.1 hi
  have hmem : .place p ∈ (Lift.Source.of i).operands := List.mem_filter.2 ⟨hops, rfl⟩
  obtain ⟨hlt, heven⟩ := present hd _ hmem (.p n) hp
  omega

/-- The index of a bit-reversed access is stepped after the access, from what its register has
then. -/
theorem reversed_accesses_step_index (isa : Isa) (m : Machine Window) {i : Instruction}
    (hi : m.instruction? isa = some i) :
    (∀ kind pair, i.row.action = .load kind → .place (.bitReverse pair) ∈ i.operands →
      ∃ dst n, i.operands = [.reg dst, .place (.bitReverse pair)] ∧ dst.shape = kind.shape ∧
        pair = .p n ∧ n % 2 = 0 ∧ n + 1 < 16 ∧
        ((m.step isa).2 = .done ↔ m.bus.Admits (m.core.reversedAddress n) kind.width) ∧
        ((m.step isa).2 = .done → m.LoadsReversed kind n dst (m.step isa).1)) ∧
    (∀ kind pair, i.row.action = .store kind → .place (.bitReverse pair) ∈ i.operands →
      ∃ src n, i.operands = [.place (.bitReverse pair), .reg src] ∧ src.shape = kind.shape ∧
        pair = .p n ∧ n % 2 = 0 ∧ n + 1 < 16 ∧
        ((m.step isa).2 = .done ↔ m.bus.Admits (m.core.reversedAddress n) kind.width) ∧
        ((m.step isa).2 = .done → m.StoresReversed kind n src (m.step isa).1)) := by
  refine ⟨fun kind pair ha hmem => ?_, fun kind pair ha hmem => ?_⟩
  · obtain ⟨-, dst, p, hops, hdst, hordinary, hp⟩ := Instruction.operands_of_load hi ha
    obtain rfl : p = .bitReverse pair := by simpa [hops, eq_comm] using hmem
    obtain ⟨n, rfl⟩ := hp
    obtain ⟨heven, hn⟩ := Instruction.pair_present hi hmem rfl
    obtain ⟨hiff, hfirst⟩ := Instruction.step_load_first hi ha hops hordinary ⟨n, rfl⟩
    rw [Place.address_bitReverse] at hiff
    exact ⟨dst, n, hops, hdst, rfl, heven, hn, hiff,
      fun hdone => ((hfirst hdone).reversed hn hordinary).of_start⟩
  · obtain ⟨-, src, p, hops, hsrc, hordinary, hp⟩ := Instruction.operands_of_store hi ha
    obtain rfl : p = .bitReverse pair := by simpa [hops, eq_comm] using hmem
    obtain ⟨n, rfl⟩ := hp
    obtain ⟨heven, hn⟩ := Instruction.pair_present hi hmem rfl
    obtain ⟨hiff, hstores⟩ := Instruction.step_store hi ha hops hordinary ⟨n, rfl⟩
    rw [Place.address_bitReverse] at hiff
    exact ⟨src, n, hops, hsrc, rfl, heven, hn, hiff, fun hdone => (hstores hdone).reversed hn⟩

/-- `ld.da p2, [p2+r]`, which loads both the base and the index of its own buffer. -/
def reversedLoad : Machine Window where
  core := (({} : Core).write (.a 2) 16).write (.a 3) 0x00080000
  bus := { base := 0, size := 24, bytes := .putAll .empty 0 ([0x29, 0x22, 0xC0, 0x01] ++
    .replicate 12 0 ++ [0x44, 0x33, 0x22, 0x11, 0x01, 0x00, 0x02, 0x00]) }

theorem reversed_accesses_step_index_overwritten :
    (reversedLoad.step .v16).2 = .done ∧
      (reversedLoad.step .v16).1.core.read (.a 2) = 0x11223344 ∧
      (reversedLoad.step .v16).1.core.read (.a 3) = 0x00020003 := by
  obtain ⟨i, hi, ha, hoperands⟩ : ∃ i, reversedLoad.instruction? .v16 = some i ∧
      i.row.action = .load .addressPair ∧
      i.operands = [.reg (.p 2), .place (.bitReverse (.p 2))] :=
    ⟨_, rfl, by decide +kernel, by decide +kernel⟩
  obtain ⟨dst, n, hops, -, hpair, -, -, hiff, hloads⟩ :=
    (reversed_accesses_step_index .v16 reversedLoad hi).1 _ (.p 2) ha (by simp [hoperands])
  obtain rfl : dst = .p 2 := by simpa [hoperands, eq_comm] using hops
  obtain rfl : 2 = n := Register.p.inj hpair
  have hdone := hiff.2 ⟨by decide +kernel, by decide +kernel⟩
  have hbase := (hloads hdone).value 0 (.a 2) rfl (by decide)
  have hindex := (hloads hdone).overwritten 1 rfl
  exact ⟨hdone, hbase.trans (by decide +kernel), hindex.trans (by decide +kernel)⟩

/-- `ld.a a3, [p2+r]`, which loads a zero over the index of its buffer. -/
def indexLoad : Machine Window where
  core := (({} : Core).write (.a 2) 16).write (.a 3) 0x00080000
  bus := { base := 0, size := 32, bytes := .putAll .empty 0 [0x29, 0x23, 0x80, 0x01] }

/-- The next index is not the step of the one before. -/
theorem load_loses_reversed_index :
    (indexLoad.step .v16).2 = .done ∧
      (indexLoad.step .v16).1.core.read (.a 3) = 0 ∧
      bitReverseStep (Operand.word indexLoad.core (.reg (.a 3))) = 0x00080008 := by
  decide +kernel

end Tricore
