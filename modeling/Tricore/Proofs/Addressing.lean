import Mathlib
import Tricore.Proofs.Sums

/-!
# Addressing modes

Where a memory operand accesses memory (`Place.address`), and which register has changed afterwards
and to what (`Place.update?`), both said of the registers before the instruction. An access computes
its address first and keeps in temporaries what the update is made from, so neither a load nor a
store in between can change it (`Lift.runs_prepared`). In bit-reversed order alone, the index is
read again after the access (`Place.updateAfter?`, `Lift.runs_access`).

In a circular buffer the index leaves the buffer by less than its length for most offsets, but not
for all: it is brought back by one length and no more, and then cut to its sixteen bits.
-/

namespace Tricore

/-! ## Circular buffers -/

/-- A circular buffer: where it starts, the index into it, and its length in bytes. -/
structure Ring where
  base : Address
  index : BitVec 16
  length : BitVec 16

namespace Ring

/-- The low word of a pair is the base; the high one has the length above the index. -/
def ofPair (v : Value) : Ring where
  base := v.setWidth 32
  index := (v >>> 32).setWidth 16
  length := (v >>> 48).setWidth 16

def address (r : Ring) : Address := r.base + r.index.setWidth 32

/-- The index after a step, brought back by one length where it is outside. -/
def moved (r : Ring) (offset : Int) : Int :=
  let z := r.index.toNat + offset
  if z < 0 then z + r.length.toNat else if r.length.toNat ≤ z then z - r.length.toNat else z

/-- The high word of the pair after a step. -/
def stepped (r : Ring) (offset : Int) : Word := r.length ++ BitVec.ofInt 16 (r.moved offset)

/-- The index after a step, brought back from below the start only. -/
def raised (r : Ring) (offset : Int) : Int :=
  if r.index.toNat + offset < 0 then r.index.toNat + offset + r.length.toNat
  else r.index.toNat + offset

/-- An index that was raised is below the end, so at most one of the two happens. -/
theorem moved_eq (r : Ring) (offset : Int) : r.moved offset =
    if r.length.toNat ≤ r.raised offset then r.raised offset - r.length.toNat
    else r.raised offset := by
  simp only [moved, raised]
  split_ifs <;> omega

theorem abs_raised_lt (r : Ring) {offset : Int} (h : |offset| ≤ 512) :
    |r.raised offset| < 2 ^ 31 := by
  have hindex := r.index.isLt
  have hlength := r.length.isLt
  rw [abs_le] at h
  rw [abs_lt, raised]
  split_ifs <;> omega

theorem and_lowHalf (x : Word) :
    x &&& (0xFFFF : Value).setWidth 32 = (x.setWidth 16).setWidth 32 := by
  refine BitVec.eq_of_getLsbD_eq fun i hi => ?_
  have hmask : ((0xFFFF : Value).setWidth 32).getLsbD i = decide (i < 16) := by
    interval_cases i <;> rfl
  rw [BitVec.getLsbD_and, hmask, BitVec.getLsbD_setWidth, BitVec.getLsbD_setWidth]
  simp [hi, Bool.and_comm]

theorem highHalf (x : Word) : x >>> 16 = ((x >>> 16).setWidth 16).setWidth 32 := by
  refine BitVec.eq_of_toNat_eq ?_
  have hlt : x.toNat >>> 16 < 2 ^ 16 := by
    have := x.isLt
    rw [Nat.shiftRight_eq_div_pow]
    omega
  rw [BitVec.toNat_setWidth_of_le (by decide), BitVec.toNat_setWidth, BitVec.toNat_ushiftRight,
    Nat.mod_eq_of_lt hlt]

theorem or_halves (x : BitVec 16) (y : Word) :
    x.setWidth 32 <<< 16 ||| (y &&& (0xFFFF : Value).setWidth 32) = x ++ y.setWidth 16 := by
  rw [and_lowHalf, BitVec.or_comm, or_shiftLeft_halves]

theorem ofPair_append (state base : Word) :
    ofPair (state ++ base) = ⟨base, state.setWidth 16, (state >>> 16).setWidth 16⟩ := by
  have hpart (k : Nat) (hk : k = 0 ∨ k = 16) :
      ((state ++ base) >>> (32 + k)).setWidth 16 = (state >>> k).setWidth 16 := by
    refine BitVec.eq_of_getLsbD_eq fun i hi => ?_
    simp only [BitVec.getLsbD_setWidth, BitVec.getLsbD_ushiftRight, BitVec.getLsbD_append,
      show ¬ 32 + k + i < 32 by omega, show 32 + k + i - 32 = k + i by omega, if_false]
  rw [ofPair, BitVec.setWidth_append_eq_right, hpart 0 (.inl rfl), hpart 16 (.inr rfl),
    BitVec.ushiftRight_zero]

end Ring

namespace Place

/-- Where memory is accessed. -/
def address (c : Core) : Place → Address
  | absolute addr => addr
  | based base offset | preIncrement base offset => Operand.word c (.reg base) + offset
  | postIncrement base _ => Operand.word c (.reg base)
  | circular pair _ | bitReverse pair => (Ring.ofPair (c.read pair)).address

/-- The register that is updated after the access, and its new word; in bit-reversed order, the one
that the index gets if the access has left it alone. -/
def update? (c : Core) : Place → Option (Register × Word)
  | absolute _ | based _ _ => none
  | postIncrement base offset | preIncrement base offset =>
    some (base, Operand.word c (.reg base) + offset)
  | circular pair offset =>
    pair.halves?.map fun (_, state) => (state, (Ring.ofPair (c.read pair)).stepped offset.toInt)
  | bitReverse pair =>
    pair.halves?.map fun (_, state) => (state, bitReverseStep (Operand.word c (.reg state)))

/-- Is the index stepped in bit-reversed order? -/
def reverses : Place → Bool
  | bitReverse _ => true
  | _ => false

/-- The update that is made after an access, if the registers were `c` before it and are `c'` after
it: a bit-reversed index is read only then. -/
def updateAfter? (c c' : Core) (p : Place) : Option (Register × Word) :=
  p.update? (if p.reverses then c' else c)

/-- The cells that the update reads after the access. -/
def late : Place → List Register
  | bitReverse pair => pair.halves?.elim [] (·.2.cells)
  | _ => []

/-- The registers and the offset are those of an encoding. -/
def Decoded : Place → Prop
  | absolute _ => True
  | based base _ | postIncrement base _ | preIncrement base _ => ∃ n, base = .a n
  | bitReverse pair => ∃ n, pair = .p n
  | circular pair offset => (∃ n, pair = .p n) ∧ -512 ≤ offset.toInt ∧ offset.toInt < 512

end Place

theorem OperandKind.decoded_of_resolve {k : OperandKind} {format : Format} {fields : Fields}
    {addr : Address} {p : Place} (h : k.resolve format fields addr = .ok (.place p)) :
    p.Decoded := by
  cases k with
  | dataPair | addressPair => exact nomatch (of_pair_eq_ok h).2
  | based mode =>
    cases mode with
    | bitReverse => cases (of_pair_eq_ok h).2; exact ⟨_, rfl⟩
    | circular =>
      cases (of_pair_eq_ok h).2
      have hoff : ((fields.off.setWidth 10).signExtend 32).toInt = (fields.off.setWidth 10).toInt :=
        BitVec.toInt_signExtend_of_le (by decide)
      have hlow := BitVec.le_toInt (fields.off.setWidth 10)
      have hhigh := BitVec.toInt_lt (x := fields.off.setWidth 10)
      exact ⟨⟨_, rfl⟩, by omega, by omega⟩
    | _ => cases h; exact ⟨_, rfl⟩
  | absolute => cases h; trivial
  | _ => cases h <;> exact ⟨_, rfl⟩

/-- Sixteen address registers are there. -/
theorem Core.read_a_mod (c : Core) (k : Nat) : c.read (.a (k % 16)) = c.read (.a k) := by
  have hindex : Fin.ofNat 16 (k % 16) = Fin.ofNat 16 k := Fin.ext (Nat.mod_mod k 16)
  exact congrArg (fun j => (c.a.get j).setWidth 64) hindex

theorem Core.read_pair (c : Core) (k : Nat) :
    c.read (.p k) = Operand.word c (.reg (.a (k + 1))) ++ Operand.word c (.reg (.a k)) := by
  simp [Operand.word, Operand.value, read, Register.canonical]

namespace Place

variable {p : Place} {c : Core} {r : Register} {w : Word}

theorem decoded_of_mem {format : Format} {fields : Fields} {addr : Address}
    {ks : List OperandKind} {os : List Operand}
    (h : List.Forall₂ (fun k o => k.resolve format fields addr = .ok o) ks os)
    (hp : .place p ∈ os) : p.Decoded := by
  induction h with
  | nil => cases hp
  | cons hk _ ih =>
    rcases List.mem_cons.1 hp with rfl | hp
    · exact OperandKind.decoded_of_resolve hk
    · exact ih hp

theorem Decoded.exists_address (hp : p.Decoded) (h : p.update? c = some (r, w)) :
    ∃ k, r = .a k := by
  cases p with
  | absolute | based => cases h
  | postIncrement | preIncrement =>
    obtain ⟨k, rfl⟩ := hp
    cases h
    exact ⟨k, rfl⟩
  | circular =>
    obtain ⟨⟨k, rfl⟩, -⟩ := hp
    cases h
    exact ⟨k + 1, rfl⟩
  | bitReverse =>
    obtain ⟨k, rfl⟩ := hp
    cases h
    exact ⟨k + 1, rfl⟩

/-- Neither address nor update needs what the start of an instruction changes. -/
theorem Decoded.start {β : Type} (hp : p.Decoded) (m : Machine β) (i : Instruction) :
    p.address (m.start i).core = p.address m.core ∧
      p.update? (m.start i).core = p.update? m.core := by
  have haddress (k : Nat) : (m.start i).core.read (.a k) = m.core.read (.a k) := rfl
  have hpair (k : Nat) : (m.start i).core.read (.p k) = m.core.read (.p k) := rfl
  cases p with
  | absolute => exact ⟨rfl, rfl⟩
  | based | postIncrement | preIncrement =>
    obtain ⟨k, rfl⟩ := hp
    simp only [address, update?, Operand.word, Operand.value, haddress, and_self]
  | circular =>
    obtain ⟨⟨k, rfl⟩, -⟩ := hp
    simp only [address, update?, hpair, and_self]
  | bitReverse =>
    obtain ⟨k, rfl⟩ := hp
    simp only [address, update?, Register.halves?, Option.map_some, Operand.word, Operand.value,
      haddress, hpair, and_self]

/-- Where the access leaves the index alone, it does not matter when it is read. -/
theorem Decoded.updateAfter?_eq {c' : Core} (hp : p.Decoded)
    (h : ∀ x ∈ p.late, c'.read x = c.read x) : p.updateAfter? c c' = p.update? c := by
  cases p with
  | bitReverse =>
    obtain ⟨k, rfl⟩ := hp
    have hindex : c'.read (.a (k + 1)) = c.read (.a (k + 1)) := by
      rw [← Core.read_a_mod c', ← Core.read_a_mod c]
      exact h _ (List.mem_singleton_self _)
    simp only [updateAfter?, update?, reverses, if_true, Register.halves?, Option.map_some,
      Operand.word, Operand.value, hindex]
  | _ => rfl

end Place

/-! ## Addresses and updates -/

/-- A word is written to a register, or nothing is. -/
def Machine.updated {β : Type} (m : Machine β) : Option (Register × Word) → Machine β
  | none => m
  | some (r, w) => m.withCore (·.write r (w.setWidth 64))

namespace Machine

variable {β : Type} {m : Machine β} {update : Option (Register × Word)} {x : Register}

theorem bus_updated (m : Machine β) (update : Option (Register × Word)) :
    (m.updated update).bus = m.bus := by
  cases update <;> rfl

theorem read_updated (hx : x.IsCell) (h : x ∉ update.elim [] (·.1.cells)) :
    (m.updated update).core.read x = m.core.read x := by
  cases update with
  | none => rfl
  | some u => exact Core.read_write hx h

theorem read_updated_self (m : Machine β) (k : Nat) (w : Word) :
    (m.updated (some (.a k, w))).core.read (.a k) = w.setWidth 64 := by
  rw [updated, withCore, Core.read_write_a, BitVec.setWidth_setWidth_of_le w (by decide),
    BitVec.setWidth_eq]

end Machine

namespace Lift

variable {β : Type} [Bus β] {pc : Address} {s : Supply} {m m₁ : Machine β} {n : Nat}

/-- The updates after an access write this word to this register, whatever becomes of registers and
memory before. -/
def Addressed.Updates (a : Addressed) (m : Machine β) (n : Nat) : Option (Register × Word) → Prop
  | none => a.updates = []
  | some (r, w) => ∃ e, a.updates = [.setReg r e] ∧ e.Keeps m n w

/-- The access is prepared: the address is known, and so is what the update writes. Temporaries
from `t` up to `n` are in use. -/
structure Addressed.Prepared (m : Machine β) (t : Nat) (p : Place) (a : Addressed) (n : Nat)
    (m' : Machine β) : Prop where
  since : m.Extends t m' n
  addr : a.addr.Yields m' n (p.address m.core)
  updates : a.Updates m' n (p.update? m.core)

theorem yields_address (m : Machine β) (k n : Nat) :
    (Expr.reg (.a k)).Yields m n (Operand.word m.core (.reg (.a k))) := by
  refine .reg trivial rfl ?_
  simp [Operand.word, Operand.value, Core.read, Register.canonical]

theorem yields_word (m : Machine β) (n : Nat) (w : Word) : (Expr.word w).Yields m n w := by
  have h : (Expr.word w).Yields m n ((w.setWidth 64).setWidth 32) := .const _ rfl
  rwa [BitVec.setWidth_setWidth_of_le w (by decide), BitVec.setWidth_eq] at h

section Wrapping

variable {r : Ring} {index length : Expr} {offset : Int}

theorem toInt_ofInt_word {z : Int} (hz : |z| < 2 ^ 31) : (BitVec.ofInt 32 z).toInt = z := by
  rw [abs_lt] at hz
  have hfits : Sign.signed.Fits .word z := Sign.fits_signed.2 ⟨hz.1.le, hz.2⟩
  exact Sign.number_ofInt hfits

/-- A sixteen-bit number, as a word. -/
theorem setWidth_eq_ofInt (x : BitVec 16) : x.setWidth 32 = BitVec.ofInt 32 x.toNat := by
  rw [BitVec.ofInt_natCast, BitVec.ofNat_toNat]

/-- An index below the start is raised by the length, -/
theorem yields_raised (hindex : index.Yields m n (BitVec.ofInt 32 (r.index.toNat + offset)))
    (hlength : length.Yields m n (r.length.setWidth 32)) (hoffset : |offset| ≤ 512) :
    (Expr.select .word (.compare .slt .word index (.const .word 0)) (.add .word index length)
      index).Yields m n (BitVec.ofInt 32 (r.raised offset)) := by
  have hword : Width.word.bits = 32 := rfl
  have hsmall : |r.index.toNat + offset| < 2 ^ 31 := by
    have hlt := r.index.isLt
    rw [abs_le] at hoffset
    exact abs_lt.2 (by omega)
  have hbelow := hindex.slt (.const 0 hword) hword
  rw [toInt_ofInt_word hsmall, show ((0 : Value).setWidth 32).toInt = 0 from rfl] at hbelow
  have h := Expr.Yields.select hbelow (hindex.add hlength hword) hindex hword
  rw [setWidth_eq_ofInt, ← BitVec.ofInt_add] at h
  rw [Ring.raised]
  by_cases hneg : r.index.toNat + offset < 0
  · simpa [hneg] using h
  · simpa [hneg] using h

/-- and one beyond the end is lowered by it. -/
theorem yields_moved (hindex : index.Yields m n (BitVec.ofInt 32 (r.raised offset)))
    (hlength : length.Yields m n (r.length.setWidth 32)) (hoffset : |offset| ≤ 512) :
    (Expr.select .word (.compare .sge .word index length) (.sub .word index length) index).Yields
      m n (BitVec.ofInt 32 (r.moved offset)) := by
  have hword : Width.word.bits = 32 := rfl
  have hsmall : |(r.length.toNat : Int)| < 2 ^ 31 := by
    have hlt := r.length.isLt
    exact abs_lt.2 (by omega)
  rw [setWidth_eq_ofInt] at hlength
  have hbeyond := hindex.sge hlength hword
  rw [toInt_ofInt_word (r.abs_raised_lt hoffset), toInt_ofInt_word hsmall] at hbeyond
  have h := Expr.Yields.select hbeyond (hindex.sub hlength hword) hindex hword
  rw [← ofInt_sub] at h
  rw [Ring.moved_eq]
  by_cases hle : (r.length.toNat : Int) ≤ r.raised offset
  · simpa [hle] using h
  · simpa [hle] using h

/-- The word that the length and the index are packed into after the access. -/
theorem yields_stepped (hindex : index.Yields m n (BitVec.ofInt 32 (r.raised offset)))
    (hlength : length.Yields m n (r.length.setWidth 32)) (hoffset : |offset| ≤ 512) :
    (Expr.or .word (.shl .word length (.const .word 16)) (.and .word
      (.select .word (.compare .sge .word index length) (.sub .word index length) index)
      (.const .word 0xFFFF))).Yields m n (r.stepped offset) := by
  have hword : Width.word.bits = 32 := rfl
  have hmoved := yields_moved hindex hlength hoffset
  have h := (hlength.shl_const (c := 16) hword (by decide)).or
    (hmoved.and (.const 0xFFFF hword) hword) hword
  rwa [show (16 : Value).toNat = 16 from rfl, Ring.or_halves, setWidth_ofInt (by decide)] at h

end Wrapping

/-- The parts of a circular buffer, as they are read from its pair. -/
theorem yields_ring (m : Machine β) (k n : Nat) :
    let r := Ring.ofPair (m.core.read (.p k))
    (Expr.reg (.a k)).Yields m n r.base ∧
      (Expr.and .word (.reg (.a (k + 1))) (.const .word 0xFFFF)).Yields m n
        (r.index.setWidth 32) ∧
      (Expr.lsr .word (.reg (.a (k + 1))) (.const .word 16)).Yields m n
        (r.length.setWidth 32) := by
  have hword : Width.word.bits = 32 := rfl
  have hstate := yields_address m (k + 1) n
  have hindex := hstate.and (.const 0xFFFF hword) hword
  have hlength := hstate.lsr_const (c := 16) hword (by decide)
  rw [Ring.and_lowHalf] at hindex
  rw [show (16 : Value).toNat = 16 from rfl, Ring.highHalf] at hlength
  rw [Core.read_pair, Ring.ofPair_append]
  exact ⟨yields_address m k n, hindex, hlength⟩

/-- The address and the stepped index of a circular buffer are kept, each from what was read at the
start. -/
theorem runs_circular {k : Nat} {offset : Word} (hoffset : |offset.toInt| ≤ 512)
    {Q : Addressed → Supply → Machine β → Prop}
    (hQ : ∀ a s' m', a.Prepared m s.temps (.circular (.p k) offset) s'.temps m' → Q a s' m') :
    (circular (.p k) offset).Runs pc s m Q := by
  have hword : Width.word.bits = 32 := rfl
  obtain ⟨hbase, hindex, hlength⟩ := yields_ring m k s.temps
  generalize hr : Ring.ofPair (m.core.read (.p k)) = r at hbase hindex hlength
  have hsum : r.index.setWidth 32 + offset = BitVec.ofInt 32 (r.index.toNat + offset.toInt) := by
    rw [setWidth_eq_ofInt, BitVec.ofInt_add, BitVec.ofInt_toInt]
  unfold circular
  refine .bind (.temp_keeps hindex (by decide) fun m₁ index hm₁ hindex => ?_)
  have hbase := hbase.along hm₁
  refine .bind (.temp_keeps (hlength.along hm₁) (by decide) fun m₂ length hm₂ hlength => ?_)
  have hindex := hindex.along hm₂
  refine .bind (.temp_keeps ((hbase.along hm₂).add hindex.yields hword) (by decide)
    fun m₃ addr hm₃ haddr => ?_)
  have hstep := (hindex.along hm₃).yields.add (yields_word m₃ _ offset) hword
  rw [hsum] at hstep
  refine .bind (.temp_keeps hstep (by decide) fun m₄ index hm₄ hindex => ?_)
  have hlength := (hlength.along hm₃).along hm₄
  refine .bind (.temp_keeps (yields_raised hindex.yields hlength.yields hoffset) (by decide)
    fun m₅ index hm₅ hindex => .pure (hQ _ _ _ ⟨?_, ?_, ?_⟩))
  · exact hm₁.trans (hm₂.trans (hm₃.trans (hm₄.trans hm₅)))
  · rw [Place.address, hr]
    exact ((haddr.along hm₄).along hm₅).yields
  · rw [Place.update?, hr]
    have hlength := hlength.along hm₅
    exact ⟨_, rfl, fun m' hsame => yields_stepped (hindex m' hsame) (hlength m' hsame) hoffset⟩

theorem runs_prepared {p : Place} (hp : p.Decoded) (hr : p.reverses = false)
    {Q : Addressed → Supply → Machine β → Prop}
    (hQ : ∀ a s' m', a.Prepared m s.temps p s'.temps m' → Q a s' m') :
    (access p).Runs pc s m Q := by
  have hword : Width.word.bits = 32 := rfl
  cases p with
  | absolute addr => exact .pure (hQ _ _ _ ⟨.refl m _, yields_word m _ addr, rfl⟩)
  | based base offset =>
    obtain ⟨k, rfl⟩ := hp
    refine .pure (hQ _ _ _ ⟨.refl m _, ?_, rfl⟩)
    show (if offset = 0 then Expr.reg (.a k) else .add .word (.reg (.a k)) (.word offset)).Yields m
      s.temps (Operand.word m.core (.reg (.a k)) + offset)
    split_ifs with hzero
    · rw [hzero, add_zero]
      exact yields_address m k _
    · exact (yields_address m k _).add (yields_word m _ offset) hword
  | postIncrement base offset =>
    obtain ⟨k, rfl⟩ := hp
    refine .bind (.temp_keeps (yields_address m k _) (by decide) fun m₁ addr hm haddr => ?_)
    refine .pure (hQ _ _ _ ⟨hm, haddr.yields, _, rfl, fun m' hsame => ?_⟩)
    exact (haddr m' hsame).add (yields_word m' _ offset) hword
  | preIncrement base offset =>
    obtain ⟨k, rfl⟩ := hp
    have haddr := (yields_address m k s.temps).add (yields_word m _ offset) hword
    refine .bind (.temp_keeps haddr (by decide) fun m₁ addr hm haddr => ?_)
    exact .pure (hQ _ _ _ ⟨hm, haddr.yields, _, rfl, haddr⟩)
  | circular pair offset =>
    obtain ⟨⟨k, rfl⟩, hlow, hhigh⟩ := hp
    exact runs_circular (abs_le.2 ⟨hlow, hhigh.le⟩) hQ
  | bitReverse => cases hr

/-- The updates are made from temporaries only. -/
theorem executes_updates {a : Addressed} {update : Option (Register × Word)}
    (h : a.Updates m n update) (hm : m.SameTemps n m₁) :
    Machine.Executes pc a.updates m₁ (m₁.updated update) := by
  cases update with
  | none =>
    have hnone : a.updates = [] := h
    rw [hnone]
    exact .nil m₁
  | some u =>
    obtain ⟨e, hupdates, he⟩ := h
    rw [hupdates]
    refine .cons ?_ (.nil _)
    simp only [Stmt.exec, (he m₁ hm).eval m₁ (.refl m₁ _)]
    rfl

/-- The address is known, and so is what the updates do to whatever the access leaves. -/
structure Addressed.Ready (pc : Address) (m : Machine β) (t : Nat) (p : Place) (a : Addressed)
    (n : Nat) (m' : Machine β) : Prop where
  since : m.Extends t m' n
  addr : a.addr.Yields m' n (p.address m.core)
  updates : ∀ m₁, m'.SameTemps n m₁ →
    Machine.Executes pc a.updates m₁ (m₁.updated (p.updateAfter? m.core m₁.core))

theorem Addressed.Prepared.ready {a : Addressed} {p : Place} {t : Nat} {m' : Machine β}
    (h : a.Prepared m t p n m') (hp : p.reverses = false) : a.Ready pc m t p n m' := by
  refine ⟨h.since, h.addr, fun m₁ hm₁ => ?_⟩
  rw [Place.updateAfter?, hp]
  exact executes_updates h.updates hm₁

theorem runs_access {p : Place} (hp : p.Decoded) {Q : Addressed → Supply → Machine β → Prop}
    (hQ : ∀ a s' m', a.Ready pc m s.temps p s'.temps m' → Q a s' m') :
    (access p).Runs pc s m Q := by
  cases hreverses : p.reverses with
  | false => exact runs_prepared hp hreverses fun a s' m' ha => hQ a s' m' (ha.ready hreverses)
  | true =>
    cases p with
    | bitReverse pair =>
      obtain ⟨k, rfl⟩ := hp
      obtain ⟨hbase, hindex, -⟩ := yields_ring m k s.temps
      refine .bind (.temp_keeps (hbase.add hindex rfl) (by decide) fun m₁ addr hm₁ haddr => ?_)
      -- No temporary has the index: the intrinsic reads and writes its register.
      exact .pure (hQ _ _ _ ⟨hm₁, haddr.yields, fun m₂ _ => .cons rfl (.nil _)⟩)
    | _ => cases hreverses

end Lift

end Tricore
