import Mathlib
import Tricore.Proofs.Exchanges

/-!
# Updates in place

`swap.w`, `ldmst`, `swapmsk.w` and `cmpswap.w` exchange a word of memory for another one, and `st.t`
replaces one bit of a byte. All of them complete exactly if memory admits the access, and then they
have written over what was there, and over nothing else, what `Machine.Exchanges` and
`Machine.StoresBit` say (`memory_updates_in_place`).
-/

namespace Tricore

namespace Machine

def byteAt (m : Machine Window) (addr : Address) : Byte := .ofNat 8 (m.bus.number addr 1)

/-- What a store of one bit leaves: the byte that was there, with that bit replaced. -/
structure StoresBit (m : Machine Window) (p : Place) (pos : Nat) (b : Bool) (m' : Machine Window) :
    Prop where
  memory : ∃ new : Byte, m.bus.Receives (p.address m.core) 1 (new.setWidth 64) m'.bus ∧
    ∀ k < 8, new.getLsbD k = if k = pos then b else (m.byteAt (p.address m.core)).getLsbD k
  registers : m.Moves p [] m'

end Machine

/-! ## One bit of a byte -/

namespace Lift

/-- A byte with all bits but one. -/
def maskBit (pos : Nat) : Value := ~~~((1 : Value) <<< (pos % 64)) &&& 0xFF

/-- The low bit of a number at a position. -/
def placeBit (pos : Nat) (value : Int) : Value := (BitVec.ofInt 64 value &&& 1) <<< (pos % 64)

/-- Some bits of a byte are kept, and others are put in. -/
def patched (old : Expr) (kept put : Value) : Expr :=
  .or .byte (.and .byte old (.const .byte kept)) (.const .byte put)

/-- A byte in memory is patched. -/
def patching (p : Place) (kept put : Value) : Emit Unit := do
  let a ← access p
  store .byte a.addr (patched (.load .byte a.addr) kept put)
  emitAll a.updates

theorem getLsbD_maskBit {pos k : Nat} (hpos : pos < 8) (hk : k < 8) :
    (maskBit pos).getLsbD k = decide (k ≠ pos) := by
  have h : ∀ pos < 8, ∀ k < 8, (maskBit pos).getLsbD k = decide (k ≠ pos) := by decide
  exact h pos hpos k hk

theorem getLsbD_placeBit {pos k : Nat} (hpos : pos < 8) (hk : k < 8) (b : Bool) :
    (placeBit pos b.toNat).getLsbD k = (decide (k = pos) && b) := by
  have h : ∀ pos < 8, ∀ k < 8, ∀ b : Bool,
      (placeBit pos b.toNat).getLsbD k = (decide (k = pos) && b) := by decide
  exact h pos hpos k hk b

theorem getLsbD_putBit (old : Byte) {pos k : Nat} (hpos : pos < 8) (hk : k < 8) (b : Bool) :
    ((old &&& (maskBit pos).setWidth 8) ||| (placeBit pos b.toNat).setWidth 8).getLsbD k =
      if k = pos then b else old.getLsbD k := by
  simp only [BitVec.getLsbD_or, BitVec.getLsbD_and, BitVec.getLsbD_setWidth, hk,
    getLsbD_maskBit hpos hk, getLsbD_placeBit hpos hk]
  by_cases hkp : k = pos <;> simp [hkp]

variable {pc : Address} {s : Supply} {m : Machine Window} {p : Place} {kept put : Value}

theorem runs_patching (hp : p.Decoded) (h : m.bus.Admits (p.address m.core) .byte) :
    (patching p kept put).Runs pc s m fun _ _ m' =>
      m.bus.Receives (p.address m.core) 1 (((m.byteAt (p.address m.core) &&& kept.setWidth 8) |||
        put.setWidth 8).setWidth 64) m'.bus ∧ m.Moves p [] m' := by
  refine .bind (runs_access hp fun a s' m₁ ha => ?_)
  have hbyte : Width.byte.bits = 8 := rfl
  rw [← ha.since.grows.bus] at h
  have hload := Access.yields_load ha.addr hbyte h
  have hvalue := ((hload.and (.const kept hbyte) hbyte).or (.const put hbyte) hbyte).eval m₁
    (.refl m₁ _)
  obtain ⟨bus, hexec, hreceives⟩ := Machine.exec_store pc ha.addr hvalue rfl h
  rw [ha.since.grows.bus] at hreceives
  have hupdates := ha.updates { m₁ with bus } fun _ _ => ⟨rfl, rfl⟩
  rw [ha.since.updateAfter?_eq hp fun _ _ => rfl] at hupdates
  refine .bind (.emit hexec ⟨_, hupdates, ?_, Machine.moves_updated hp ha.since fun _ _ _ => rfl⟩)
  rwa [Machine.bus_updated]

theorem eval_patched_error {old : Expr} {t : Trap} (h : old.eval m = .error t) (kept put : Value) :
    (patched old kept put).eval m = .error t := by
  simp only [patched, Expr.or, Expr.and, Expr.eval, h, bind, Except.bind]

theorem traps_patching (hp : p.Decoded) (h : ¬ m.bus.Admits (p.address m.core) .byte) :
    (patching p kept put).Traps pc s m (Machine.refusal (p.address m.core) .byte) := by
  refine Emit.Runs.bind_traps (runs_access hp fun a s' m₁ ha => ?_)
  rw [← ha.since.grows.bus] at h
  have hload := eval_patched_error (Machine.eval_load_refused ha.addr h) kept put
  have hexec : (Stmt.store .byte a.addr (patched (.load .byte a.addr) kept put)).exec pc m₁ =
      (m₁, .trap (Machine.refusal (p.address m.core) .byte)) := by
    simp only [Stmt.exec, ha.addr.eval m₁ (.refl m₁ _), hload]
  exact .bind (.emit hexec)

end Lift

/-! ## Instructions -/

theorem Opcode.update_rows : ∀ g ∈ table, ∀ r ∈ g.rows,
    (r.mnemonic = "swap.w" → r.action = .swap) ∧
    (r.mnemonic = "ldmst" → r.action = .loadModifyStore) ∧
    (r.mnemonic = "swapmsk.w" → r.action = .swapMasked) ∧
    (r.mnemonic = "cmpswap.w" → r.action = .compareSwap) ∧
    (r.mnemonic = "st.t" → r.action = .storeBit ∧ g.format = .absb ∧
      r.operands = [.absolute, .position, .bit]) := by
  decide +kernel

theorem Lift.Source.imm_of {s : Source} {os : List Operand} (k : Nat) (h : s.operands = os)
    {v : Int} (hk : os[k]? = some (.imm v)) : s.imm k = .ok v := by
  rw [imm, operand_of k h hk]
  rfl

/-- Only a swap takes one register. -/
theorem Action.pair_of_exchange {a : Action} {r : Register} {c : Core} {new : Word → Word}
    {written : List Register} (ha : a.exchangeShape? = some .dataPair)
    (h : a.exchange? c r = some (new, written)) : ∃ k, r = .e k := by
  cases a with
  | loadModifyStore | swapMasked | compareSwap =>
    cases r with
    | e k => exact ⟨k, rfl⟩
    | _ => cases h
  | _ => cases ha

namespace Instruction

variable {isa : Isa} {m : Machine Window} {i : Instruction}

theorem operands_of_bit (hi : m.instruction? isa = some i) (hname : i.mnemonic = "st.t") :
    ∃ (p : Place) (pos : Nat) (b : Bool), i.row.action = .storeBit ∧
      i.operands = [.place p, .imm pos, .imm b.toNat] ∧ p.Decoded ∧ pos < 8 := by
  obtain ⟨g, hg, hr, raw, addr, hos⟩ := resolved hi
  obtain ⟨ha, hformat, hrow⟩ := (Opcode.update_rows g hg _ hr).2.2.2.2 hname
  have hdecoded {p : Place} (hmem : .place p ∈ i.operands) : p.Decoded :=
    Place.decoded_of_mem hos hmem
  rw [hrow, hformat] at hos
  simp only [List.forall₂_cons_left_iff, List.forall₂_nil_left_iff] at hos
  obtain ⟨o, _, ho, ⟨o', _, ho', ⟨o'', _, ho'', rfl, rfl⟩, rfl⟩, hops⟩ := hos
  cases ho
  cases ho'
  cases ho''
  have hbit : ∀ x : BitVec 1, x.toNat = (x.getLsbD 0).toNat := by decide
  have hpos (x : BitVec 3) : (x.setWidth 5).toNat < 8 := by
    rw [BitVec.toNat_setWidth]
    omega
  rw [hbit] at hops
  exact ⟨_, _, _, ha, hops, hdecoded (by rw [hops]; simp), hpos _⟩

theorem step_storeBit {p : Place} {pos : Nat} {b : Bool} (hi : m.instruction? isa = some i)
    (ha : i.row.action = .storeBit) (hops : i.operands = [.place p, .imm pos, .imm b.toNat])
    (hp : p.Decoded) (hpos : pos < 8) :
    ((m.step isa).2 = .done ↔ m.bus.Admits (p.address m.core) .byte) ∧
      ((m.step isa).2 = .done → m.StoresBit p pos b (m.step isa).1) := by
  have hsource : (Lift.Source.of i).operands = [.place p, .imm pos, .imm b.toNat] :=
    (operands_of_unselected (by rw [hops]; simp [Operand.shape])).trans hops
  have hplan : i.plan =
      Lift.emitting (Lift.patching p (Lift.maskBit pos) (Lift.placeBit pos b.toNat)) := by
    have hcount : (BitVec.ofInt 32 pos).toNat = pos := by
      rw [BitVec.ofInt_natCast, BitVec.toNat_ofNat, Nat.mod_eq_of_lt (by omega)]
    rw [Instruction.plan, ha, Lift.plan, Lift.Plan.storeBit, Lift.Source.place_of 0 hsource rfl,
      Lift.Source.count_of 1 hsource rfl, hcount, Lift.Source.imm_of 2 hsource rfl]
    rfl
  rw [← (hp.start m i).1]
  refine Machine.step_done_iff hi hplan (fun h s => ?_) fun h s => Lift.traps_patching hp h
  refine .mono (Lift.runs_patching hp h) fun _ _ m' hm' => ?_
  rw [(hp.start m i).1] at hm'
  exact ⟨⟨_, hm'.1, fun k hk => Lift.getLsbD_putBit _ hpos hk b⟩, hm'.2.of_start hp⟩

theorem operands_of_pair (hi : m.instruction? isa = some i)
    (ha : i.row.action.exchangeShape? = some .dataPair) :
    ∃ p k, i.operands = [.place p, .reg (.e k)] ∧ p.Decoded := by
  obtain ⟨p, r, new, written, hops, hp, hx⟩ := operands_of_exchange hi ha
  obtain ⟨k, rfl⟩ := Action.pair_of_exchange ha hx
  exact ⟨p, k, hops, hp⟩

end Instruction

/-- The step completes exactly if memory admits the access, and then it leaves this. -/
def Machine.CompletesAt (isa : Isa) (m : Machine Window) (addr : Address) (w : Width)
    (Q : Machine Window → Prop) : Prop :=
  ((m.step isa).2 = .done ↔ m.bus.Admits addr w) ∧ ((m.step isa).2 = .done → Q (m.step isa).1)

/-- What is written over the word in memory: the register, the old word with the bits of the value
where the mask has them, or the value if the old word is the one expected. The old word goes to the
register of the value, or is dropped. A store of a bit leaves the other bits of its byte. -/
theorem memory_updates_in_place (isa : Isa) (m : Machine Window) {i : Instruction}
    (hi : m.instruction? isa = some i) :
    (i.mnemonic = "swap.w" → ∃ p k, i.operands = [.place p, .reg (.d k)] ∧
      m.CompletesAt isa (p.address m.core) .word (m.Exchanges p
        (fun _ => Operand.word m.core (.reg (.d k))) (Register.d k).cells)) ∧
    (i.mnemonic = "ldmst" → ∃ p k, i.operands = [.place p, .reg (.e k)] ∧
      m.CompletesAt isa (p.address m.core) .word (m.Exchanges p
        (fun old => merged old (Operand.word m.core (.reg (.d k)))
          (Operand.word m.core (.reg (.d (k + 1))))) [])) ∧
    (i.mnemonic = "swapmsk.w" → ∃ p k, i.operands = [.place p, .reg (.e k)] ∧
      m.CompletesAt isa (p.address m.core) .word (m.Exchanges p
        (fun old => merged old (Operand.word m.core (.reg (.d k)))
          (Operand.word m.core (.reg (.d (k + 1))))) (Register.d k).cells)) ∧
    (i.mnemonic = "cmpswap.w" → ∃ p k, i.operands = [.place p, .reg (.e k)] ∧
      m.CompletesAt isa (p.address m.core) .word (m.Exchanges p
        (fun old => compared old (Operand.word m.core (.reg (.d k)))
          (Operand.word m.core (.reg (.d (k + 1))))) (Register.d k).cells)) ∧
    (i.mnemonic = "st.t" → ∃ (p : Place) (pos : Nat) (b : Bool),
      i.operands = [.place p, .imm pos, .imm b.toNat] ∧ pos < 8 ∧
      m.CompletesAt isa (p.address m.core) .byte (m.StoresBit p pos b)) := by
  obtain ⟨g, hg, hr, -⟩ := Instruction.resolved hi
  obtain ⟨hswap, hmodify, hmasked, hcompare, -⟩ := Opcode.update_rows g hg _ hr
  refine ⟨fun hname => ?_, fun hname => ?_, fun hname => ?_, fun hname => ?_, fun hname => ?_⟩
  · have ha := hswap hname
    have hshape : i.row.action.exchangeShape? = some .data := by rw [ha]; rfl
    obtain ⟨p, r, new, written, hops, hp, hx⟩ := Instruction.operands_of_exchange hi hshape
    rw [ha] at hx
    cases r with
    | d k => exact ⟨p, k, hops, Instruction.step_swap hi hp ha hops⟩
    | _ => cases hx
  · have ha := hmodify hname
    obtain ⟨p, k, hops, hp⟩ := Instruction.operands_of_pair hi (by rw [ha]; rfl)
    exact ⟨p, k, hops, Instruction.step_loadModifyStore hi hp hops ha⟩
  · have ha := hmasked hname
    obtain ⟨p, k, hops, hp⟩ := Instruction.operands_of_pair hi (by rw [ha]; rfl)
    exact ⟨p, k, hops, Instruction.step_swapMasked hi hp hops ha⟩
  · have ha := hcompare hname
    obtain ⟨p, k, hops, hp⟩ := Instruction.operands_of_pair hi (by rw [ha]; rfl)
    exact ⟨p, k, hops, Instruction.step_compareSwap hi hp hops ha⟩
  · obtain ⟨p, pos, b, ha, hops, hp, hpos⟩ := Instruction.operands_of_bit hi hname
    exact ⟨p, pos, b, hops, hpos, Instruction.step_storeBit hi ha hops hp hpos⟩

/-- `cmpswap.w [a2+]4, e4`, with the word in memory that is expected. -/
def compareHit : Machine Window where
  core := ((({} : Core).setA 2 16).setD 4 9).setD 5 7
  bus :=
    let code : Store := .putAll .empty 0 [0x49, 0x24, 0xC4, 0x00]
    { base := 0, size := 32, bytes := code.putAll 16 [7, 0, 0, 0] }

theorem memory_updates_in_place_hit :
    (compareHit.step .v16).1.wordAt 16 = 9 ∧ (compareHit.step .v16).1.core.read (.d 4) = 7 ∧
      (compareHit.step .v16).1.core.read (.a 2) = 20 := by
  have hdecoded : (compareHit.instruction? .v16).any (fun i => i.mnemonic = "cmpswap.w" ∧
      i.operands = [.place (.postIncrement (.a 2) 4), .reg (.e 4)]) = true := by decide +kernel
  obtain ⟨i, hi, h⟩ := Option.any_eq_true _ _ |>.1 hdecoded
  obtain ⟨hname, hoperands⟩ := of_decide_eq_true h
  obtain ⟨p, k, hops, -, hexchanges⟩ :=
    (memory_updates_in_place .v16 compareHit hi).2.2.2.1 hname
  obtain ⟨rfl, rfl⟩ : .postIncrement (.a 2) 4 = p ∧ 4 = k := by simpa [hoperands] using hops
  have hx := hexchanges (by decide +kernel)
  have haddr : Place.address compareHit.core (.postIncrement (.a 2) 4) = 16 := by decide +kernel
  have hmemory := hx.memory.number
  rw [haddr] at hmemory
  refine ⟨?_, ?_, ?_⟩
  · rw [Machine.wordAt, hmemory]
    decide +kernel
  · rw [hx.value (.d 4) (by decide)]
    decide +kernel
  · rw [hx.registers.update (.a 2) 20 (by decide +kernel)]
    decide

end Tricore
