import Mathlib
import Tricore.Proofs.Exchanges
import Tricore.Proofs.ReversedAccess
import Tricore.Proofs.Shifts

/-!
# Circular buffers

The index of a circular buffer is brought back by one length at most. That is enough where a step is
no longer than the buffer: the index is then the sum modulo the length (`Ring.Steps`), and so it is
after any number of accesses (`Machine.Walks`, `circular_buffers_keep_bounds`). Every instruction
with such an operand is a load, a store, a read-modify-write or a cache operation, and accesses
memory at the index that it finds (`Machine.Accesses`).

Cache operations do nothing here but to be called, with an address.
-/

namespace Tricore

/-! ## Steps of the index -/

namespace Ring

/-- The index is below the length. -/
def Inside (r : Ring) : Prop := r.index < r.length

instance : DecidablePred Inside := fun r => inferInstanceAs (Decidable (r.index < r.length))

/-- What a step leaves of a buffer; where it starts is another matter. -/
structure Steps (r : Ring) (offset : Int) (r' : Ring) : Prop where
  length : r'.length = r.length
  index : (r'.index.toNat : Int) = (r.index.toNat + offset) % r.length.toNat
  inside : r'.Inside

variable {r r' r'' : Ring} {offset offset' : Int}

theorem Inside.lt (h : r.Inside) : (r.index.toNat : Int) < r.length.toNat := by
  exact_mod_cast BitVec.lt_def.1 h

theorem Steps.refl (h : r.Inside) : r.Steps 0 r := by
  refine ⟨rfl, ?_, h⟩
  rw [add_zero, Int.emod_eq_of_lt (Int.natCast_nonneg _) h.lt]

theorem Steps.trans (h : r.Steps offset r') (h' : r'.Steps offset' r'') :
    r.Steps (offset + offset') r'' := by
  refine ⟨h'.length.trans h.length, ?_, h'.inside⟩
  rw [h'.index, h.index, h.length, Int.emod_add_emod, add_assoc]

/-- One length is enough. -/
theorem moved_eq_emod (h : r.Inside) (hoffset : |offset| ≤ r.length.toNat) :
    r.moved offset = (r.index.toNat + offset) % r.length.toNat := by
  have hlt := h.lt
  rw [abs_le] at hoffset
  rw [moved]
  split_ifs with hbelow hbeyond
  · rw [← Int.add_emod_right, Int.emod_eq_of_lt (by omega) (by omega)]
  · rw [← Int.sub_emod_right, Int.emod_eq_of_lt (by omega) (by omega)]
  · rw [Int.emod_eq_of_lt (by omega) (by omega)]

theorem steps_of_moved (h : r.Inside) (hoffset : |offset| ≤ r.length.toNat)
    (hlength : r'.length = r.length) (hindex : r'.index = BitVec.ofInt 16 (r.moved offset)) :
    r.Steps offset r' := by
  have hlt := h.lt
  have hpos : (0 : Int) < r.length.toNat := by omega
  have hnonneg := Int.emod_nonneg (r.index.toNat + offset) hpos.ne'
  have hbelow := Int.emod_lt_of_pos (r.index.toNat + offset) hpos
  have hfits := r.length.isLt
  have heq : (r'.index.toNat : Int) = (r.index.toNat + offset) % r.length.toNat := by
    rw [hindex, moved_eq_emod h hoffset, BitVec.toNat_ofInt]
    generalize (r.index.toNat + offset) % (r.length.toNat : Int) = z at hnonneg hbelow ⊢
    omega
  refine ⟨hlength, heq, BitVec.lt_def.2 ?_⟩
  rw [hlength]
  omega

/-- The word after a step has the length above the index. -/
theorem halves_stepped (r : Ring) (offset : Int) :
    (r.stepped offset >>> 16).setWidth 16 = r.length ∧
      (r.stepped offset).setWidth 16 = BitVec.ofInt 16 (r.moved offset) := by
  constructor
  · refine BitVec.eq_of_getLsbD_eq fun k hk => ?_
    simp only [stepped, BitVec.getLsbD_setWidth, BitVec.getLsbD_ushiftRight, BitVec.getLsbD_append,
      hk, show ¬ 16 + k < 16 by omega, show 16 + k - 16 = k by omega, decide_true, Bool.true_and,
      if_false]
  · exact BitVec.setWidth_append_eq_right

end Ring

namespace Machine

/-- The buffer whose base and index are in the pair at `n`. -/
def ringAt {β : Type} (m : Machine β) (n : Nat) : Ring := Ring.ofPair (m.core.read (.p n))

variable {β : Type} {m m' : Machine β} {n : Nat}

theorem ringAt_eq (m : Machine β) (n : Nat) : m.ringAt n =
    let state := Operand.word m.core (.reg (.a (n + 1)))
    ⟨Operand.word m.core (.reg (.a n)), state.setWidth 16, (state >>> 16).setWidth 16⟩ := by
  rw [ringAt, Core.read_pair, Ring.ofPair_append]

/-- Length and index are in one register. -/
theorem ringAt_of_read (h : m'.core.read (.a (n + 1)) = m.core.read (.a (n + 1))) :
    (m'.ringAt n).length = (m.ringAt n).length ∧ (m'.ringAt n).index = (m.ringAt n).index := by
  simp only [ringAt_eq, Operand.word, Operand.value, h, and_self]

/-- The update of the mode is a step of the buffer. -/
theorem Moves.steps {offset : Word} {written : List Register}
    (h : m.Moves (.circular (.p n) offset) written m') (hinside : (m.ringAt n).Inside)
    (hoffset : |offset.toInt| ≤ (m.ringAt n).length.toNat) :
    (m.ringAt n).Steps offset.toInt (m'.ringAt n) := by
  have hupdate := h.update (.a (n + 1)) ((m.ringAt n).stepped offset.toInt) rfl
  have hstate : Operand.word m'.core (.reg (.a (n + 1))) =
      (m.ringAt n).stepped offset.toInt := by
    rw [Operand.word, Operand.value, hupdate,
      BitVec.setWidth_setWidth_of_le ((m.ringAt n).stepped _) (by decide), BitVec.setWidth_eq]
  obtain ⟨hlength, hindex⟩ := (m.ringAt n).halves_stepped offset.toInt
  rw [← hstate] at hlength hindex
  exact Ring.steps_of_moved hinside hoffset (by rw [ringAt_eq m']; exact hlength)
    (by rw [ringAt_eq m']; exact hindex)

end Machine

/-! ## Cache operations -/

/-- The operations on a line of the cache. -/
def Intrinsic.cacheOperations : List Intrinsic :=
  [cacheWriteback, cacheWritebackInvalidate, cacheInvalidate]

def Action.cache? : Action → Option Intrinsic
  | cache c => some c
  | _ => none

theorem Opcode.cache_rows : ∀ g ∈ table, ∀ r ∈ g.rows, ∀ c ∈ r.action.cache?,
    c ∈ Intrinsic.cacheOperations ∧ r.operands.map (·.shape) = [.place] := by
  decide +kernel

/-- The statements of the instruction come to the operation, with this address. -/
def Machine.Calls {β : Type} [Bus β] (m : Machine β) (i : Instruction) (c : Intrinsic)
    (addr : Address) : Prop :=
  ∃ t before e after m₁, i.lift .empty = .ok t ∧ t.stmts = before ++ .intrinsic c [] [e] :: after ∧
    Machine.Executes i.addr before (m.start i) m₁ ∧ e.eval m₁ = .ok (addr.setWidth 64)

namespace Instruction

variable {isa : Isa} {m : Machine Window} {i : Instruction} {p : Place} {c : Intrinsic}
  (hi : m.instruction? isa = some i) (ha : i.row.action = .cache c)
include hi ha

theorem operands_of_cache : c ∈ Intrinsic.cacheOperations ∧
    ∃ p, i.operands = [.place p] ∧ p.Decoded := by
  obtain ⟨g, hg, hr, raw, addr, hos⟩ := resolved hi
  obtain ⟨hc, hrow⟩ := Opcode.cache_rows g hg i.row hr c (by rw [ha]; rfl)
  rw [← shapes_of_resolved hos] at hrow
  simp only [List.map_eq_cons_iff, List.map_eq_nil_iff] at hrow
  obtain ⟨o, _, hops, ho, rfl⟩ := hrow
  obtain ⟨p, rfl⟩ := Operand.exists_place ho
  exact ⟨hc, p, hops, Place.decoded_of_mem hos (by rw [hops]; simp)⟩

theorem step_cache (hc : c ∈ Intrinsic.cacheOperations) (hops : i.operands = [.place p])
    (hp : p.Decoded) : (m.step isa).2 = .done ∧ m.Calls i c (p.address m.core) ∧
      (m.step isa).1.bus = m.bus ∧ m.Moves p [] (m.step isa).1 := by
  obtain ⟨bytes, hf, hd⟩ := Machine.instruction?_eq_some.1 hi
  have hsource : (Lift.Source.of i).operands = [.place p] :=
    (operands_of_unselected (by rw [hops]; simp [Operand.shape])).trans hops
  have hplan : i.plan = Lift.emitting (Lift.access p >>= fun a =>
      Lift.intrinsic c [] [a.addr] >>= fun _ => Lift.emitAll a.updates) := by
    rw [Instruction.plan, ha, Lift.plan, Lift.Plan.cache, Lift.Plan.addressed,
      Lift.Source.place_of 0 hsource rfl]
    rfl
  let s : Lift.Supply := { temps := 0, labels := 0, labelAt? := fun _ => none }
  obtain ⟨m₁, hrun, hready⟩ : (Lift.access p).Runs i.addr s (m.start i)
      fun a s' m' => a.Ready i.addr (m.start i) 0 p s'.temps m' :=
    Lift.runs_access hp fun _ _ _ h => h
  have haddr := hready.addr.eval m₁ (.refl m₁ _)
  have hcall : (Stmt.intrinsic c [] [(Lift.access p s).1.addr]).exec i.addr m₁ = (m₁, .next) := by
    have hnone (args : List Value) : m₁.intrinsic i.addr c [] args = (m₁, none) := by
      simp only [Intrinsic.cacheOperations, List.mem_cons, List.not_mem_nil, or_false] at hc
      rcases hc with rfl | rfl | rfl <;> rfl
    simp only [Stmt.exec, Expr.evalList, haddr, bind, Except.bind, pure, Except.pure, hnone]
    rfl
  have hrest := hready.updates m₁ fun _ _ => ⟨rfl, rfl⟩
  rw [hready.since.updateAfter?_eq hp fun _ _ => rfl, (hp.start m i).2] at hrest
  have hstep : m.step isa = (m₁.updated (p.update? m.core), .done) :=
    (Machine.step_of_plan hf hd hplan).trans ((hrun.append (.cons hcall hrest)).run _)
  rw [hstep]
  refine ⟨rfl, ?_, (Machine.bus_updated _ _).trans hready.since.grows.bus, ?_⟩
  · rw [(hp.start m i).1] at haddr
    exact ⟨_, _, _, _, m₁, lift_of_plan hplan .empty, rfl, hrun, haddr⟩
  · have hmoves : (m.start i).Moves p [] (m₁.updated (p.update? (m.start i).core)) :=
      Machine.moves_updated hp hready.since fun _ _ _ => rfl
    rw [(hp.start m i).2] at hmoves
    exact hmoves.of_start hp

end Instruction

/-! ## Accesses -/

/-- The instruction has accessed memory where the operand says. -/
inductive Machine.Accesses (m : Machine Window) (i : Instruction) (p : Place)
    (m' : Machine Window) : Prop where
  | load {kind : Access} {dst : Register} (action : i.row.action = .load kind)
      (operands : i.operands = [.reg dst, .place p]) (left : m.Loads kind p dst m')
  | store {kind : Access} {src : Register} (action : i.row.action = .store kind)
      (operands : i.operands = [.place p, .reg src]) (left : m.Stores kind p src m')
  | exchange {r : Register} {new : Word → Word} {written : List Register}
      (action : i.row.action.exchange? m.core r = some (new, written))
      (operands : i.operands = [.place p, .reg r]) (left : m.Exchanges p new written m')
  | cache {c : Intrinsic} (action : i.row.action = .cache c) (operands : i.operands = [.place p])
      (called : m.Calls i c (p.address m.core)) (memory : m'.bus = m.bus)
      (registers : m.Moves p [] m')

theorem Machine.Accesses.moves {m m' : Machine Window} {i : Instruction} {p : Place}
    (h : m.Accesses i p m') : ∃ written, m.Moves p written m' := by
  cases h with
  | load _ _ left => exact ⟨_, left.registers⟩
  | store _ _ left => exact ⟨_, left.registers⟩
  | exchange _ _ left => exact ⟨_, left.registers⟩
  | cache _ _ _ _ registers => exact ⟨_, registers⟩

/-- The actions of these instructions. -/
def Action.accesses (a : Action) : Bool :=
  match a with
  | load _ | store _ | cache _ => true
  | _ => a.exchangeShape?.isSome

theorem Opcode.circular_rows : ∀ g ∈ table, ∀ r ∈ g.rows,
    .based .circular ∈ r.operands → r.action.accesses = true := by
  decide +kernel

theorem OperandKind.circular_of_resolve {k : OperandKind} {format : Format} {fields : Fields}
    {addr : Address} {pair : Register} {offset : Word}
    (h : k.resolve format fields addr = .ok (.place (.circular pair offset))) :
    k = .based .circular := by
  cases k with
  | dataPair | addressPair => exact nomatch (of_pair_eq_ok h).2
  | based mode =>
    cases mode with
    | bitReverse => exact nomatch (of_pair_eq_ok h).2
    | circular => rfl
    | _ => cases h
  | _ => cases h

namespace Machine

variable {isa : Isa} {m : Machine Window} {i : Instruction}

/-- An instruction with a circular operand that completes has accessed memory there. -/
theorem accesses_of_done {pair : Register} {offset : Word} (hi : m.instruction? isa = some i)
    (hmem : .place (.circular pair offset) ∈ i.operands) (hdone : (m.step isa).2 = .done) :
    m.Accesses i (.circular pair offset) (m.step isa).1 := by
  have haccesses : i.row.action.accesses = true := by
    obtain ⟨g, hg, hr, raw, addr, hos⟩ := Instruction.resolved hi
    obtain ⟨k, hk, hresolve⟩ := Instruction.exists_kind hos _ hmem
    exact Opcode.circular_rows g hg i.row hr (OperandKind.circular_of_resolve hresolve ▸ hk)
  cases ha : i.row.action with
  | load kind =>
    obtain ⟨-, dst, p, hops, -, hordinary, hp⟩ := Instruction.operands_of_load hi ha
    obtain rfl : p = .circular pair offset := by simpa [hops, eq_comm] using hmem
    exact .load ha hops ((Instruction.step_load hi ha hops hordinary hp rfl).2 hdone)
  | store kind =>
    obtain ⟨-, src, p, hops, -, hordinary, hp⟩ := Instruction.operands_of_store hi ha
    obtain rfl : p = .circular pair offset := by simpa [hops, eq_comm] using hmem
    exact .store ha hops ((Instruction.step_store hi ha hops hordinary hp).2 hdone)
  | cache c =>
    obtain ⟨hc, p, hops, hp⟩ := Instruction.operands_of_cache hi ha
    obtain rfl : p = .circular pair offset := by simpa [hops, eq_comm] using hmem
    obtain ⟨-, hcalls, hbus, hmoves⟩ := Instruction.step_cache hi ha hc hops hp
    exact .cache ha hops hcalls hbus hmoves
  | swap | loadModifyStore | swapMasked | compareSwap =>
    obtain ⟨p, r, new, written, hops, hp, hx⟩ :=
      Instruction.operands_of_exchange hi (by rw [ha]; rfl)
    obtain rfl : p = .circular pair offset := by simpa [hops, eq_comm] using hmem
    exact .exchange hx hops ((Instruction.step_exchange hi hops hp hx).2 hdone)
  | _ => rw [ha] at haccesses; cases haccesses

/-- Accesses to the buffer at `n` that complete, by these offsets, none of them longer than the
buffer. In between, anything may happen that leaves length and index alone. -/
inductive Walks (isa : Isa) (n : Nat) : Machine Window → List Int → Machine Window → Prop where
  | nil (m : Machine Window) : Walks isa n m [] m
  | access {m m' : Machine Window} {i : Instruction} {offset : Word} {offsets : List Int}
      (hi : m.instruction? isa = some i) (hmem : .place (.circular (.p n) offset) ∈ i.operands)
      (hoffset : |offset.toInt| ≤ (m.ringAt n).length.toNat) (hdone : (m.step isa).2 = .done)
      (rest : Walks isa n (m.step isa).1 offsets m') : Walks isa n m (offset.toInt :: offsets) m'
  | other {m m₁ m' : Machine Window} {offsets : List Int}
      (hkept : m₁.core.read (.a (n + 1)) = m.core.read (.a (n + 1)))
      (rest : Walks isa n m₁ offsets m') : Walks isa n m offsets m'

theorem Walks.steps {n : Nat} {m' : Machine Window} {offsets : List Int}
    (h : Walks isa n m offsets m') (hinside : (m.ringAt n).Inside) :
    (m.ringAt n).Steps offsets.sum (m'.ringAt n) := by
  induction h with
  | nil => exact .refl hinside
  | access hi hmem hoffset hdone _ ih =>
    obtain ⟨written, hmoves⟩ := (accesses_of_done hi hmem hdone).moves
    have hstep := hmoves.steps hinside hoffset
    rw [List.sum_cons]
    exact hstep.trans (ih hstep.inside)
  | other hkept _ ih =>
    obtain ⟨hlength, hindex⟩ := ringAt_of_read hkept
    have hsteps := ih (by rwa [Ring.Inside, hlength, hindex])
    exact ⟨hsteps.length.trans hlength, by rw [hsteps.index, hlength, hindex], hsteps.inside⟩

end Machine

/-- Circular accesses are made at the index, and step it modulo the length, which stays: one of
them, and any number. -/
theorem circular_buffers_keep_bounds (isa : Isa) :
    (∀ (m : Machine Window) (i : Instruction) (pair : Register) (offset : Word),
      m.instruction? isa = some i → .place (.circular pair offset) ∈ i.operands →
      ∃ n, pair = .p n ∧ n % 2 = 0 ∧ n + 1 < 16 ∧ ((m.step isa).2 = .done →
        m.Accesses i (.circular pair offset) (m.step isa).1 ∧
        Place.address m.core (.circular pair offset) =
          (m.ringAt n).base + (m.ringAt n).index.setWidth 32 ∧
        ((m.ringAt n).Inside → |offset.toInt| ≤ (m.ringAt n).length.toNat →
          (m.ringAt n).Steps offset.toInt ((m.step isa).1.ringAt n)))) ∧
    (∀ (n : Nat) (m m' : Machine Window) (offsets : List Int),
      m.Walks isa n offsets m' → (m.ringAt n).Inside →
      (m.ringAt n).Steps offsets.sum (m'.ringAt n)) := by
  refine ⟨fun m i pair offset hi hmem => ?_, fun n m m' offsets h hinside => h.steps hinside⟩
  obtain ⟨g, hg, hr, raw, addr, hos⟩ := Instruction.resolved hi
  obtain ⟨⟨n, rfl⟩, -⟩ : Place.Decoded (.circular pair offset) := Place.decoded_of_mem hos hmem
  obtain ⟨heven, hn⟩ := Instruction.pair_present hi hmem rfl
  refine ⟨n, rfl, heven, hn, fun hdone => ?_⟩
  have haccesses := Machine.accesses_of_done hi hmem hdone
  obtain ⟨written, hmoves⟩ := haccesses.moves
  exact ⟨haccesses, rfl, fun hinside hoffset => hmoves.steps hinside hoffset⟩

/-- `st.h [p2+c]6, d1` twice, in a buffer of eight bytes. -/
def ringWalk : Machine Window where
  core := (({} : Core).write (.a 2) 16).write (.a 3) 0x00080000
  bus := { base := 0, size := 24, bytes := .putAll .empty 0 ([0xA9, 0x21, 0x86, 0x04] ++
    [0xA9, 0x21, 0x86, 0x04]) }

/-- The second step goes over the end. -/
theorem circular_buffers_keep_bounds_twice :
    let m₁ := (ringWalk.step .v16).1
    let m₂ := (m₁.step .v16).1
    (ringWalk.ringAt 2).Inside ∧ (ringWalk.ringAt 2).Steps 6 (m₁.ringAt 2) ∧
      (ringWalk.ringAt 2).Steps 12 (m₂.ringAt 2) ∧ (m₂.ringAt 2).index = 4 := by
  intro m₁ m₂
  have hstore : (ringWalk.instruction? .v16).any
      (.place (.circular (.p 2) 6) ∈ ·.operands) = true := by decide +kernel
  have hstore₁ : (m₁.instruction? .v16).any
      (.place (.circular (.p 2) 6) ∈ ·.operands) = true := by decide +kernel
  obtain ⟨i, hi, hmem⟩ := Option.any_eq_true _ _ |>.1 hstore
  obtain ⟨i₁, hi₁, hmem₁⟩ := Option.any_eq_true _ _ |>.1 hstore₁
  rw [decide_eq_true_iff] at hmem hmem₁
  have hinside : (ringWalk.ringAt 2).Inside := by decide +kernel
  have hdone : (ringWalk.step .v16).2 = .done := by decide +kernel
  have hdone₁ : (m₁.step .v16).2 = .done := by decide +kernel
  have hoffset : |(6 : Word).toInt| ≤ (ringWalk.ringAt 2).length.toNat := by decide +kernel
  have hoffset₁ : |(6 : Word).toInt| ≤ (m₁.ringAt 2).length.toNat := by decide +kernel
  obtain ⟨n, hpair, -, -, hstep⟩ :=
    (circular_buffers_keep_bounds .v16).1 ringWalk i (.p 2) 6 hi hmem
  obtain rfl : 2 = n := Register.p.inj hpair
  have hwalk : ringWalk.Walks .v16 2 [6, 6] m₂ :=
    .access hi hmem hoffset hdone (.access hi₁ hmem₁ hoffset₁ hdone₁ (.nil m₂))
  have hsteps := (circular_buffers_keep_bounds .v16).2 2 ringWalk m₂ [6, 6] hwalk hinside
  exact ⟨hinside, (hstep hdone).2.2 hinside hoffset, hsteps, by decide +kernel⟩

end Tricore
