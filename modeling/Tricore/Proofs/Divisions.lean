import Mathlib
import Tricore.Proofs.Accumulation
import Tricore.Proofs.EncodingBits

/-!
# Division

A division leaves a quotient and a remainder, computed one by one, and an overflow that is decided
by a third expression. `Sign.Quotient` says what the three are for a dividend and a divisor, read as
signed or unsigned words: the division identity where the quotient is a word, and what is left
instead for a divisor of zero and for the least signed word divided by minus one.
`divisions_satisfy_identity` says that every division leaves them in its pair and in the status
word; both sources are kept before anything is written, so they may be halves of that pair.
-/

namespace Tricore

/-! ## Reference -/

namespace Sign

/-- The division identity, with a remainder smaller than the divisor and of the dividend's sign. -/
structure Divides (s : Sign) (a b q r : Word) : Prop where
  identity : s.number a = s.number q * s.number b + s.number r
  small : |s.number r| < |s.number b|
  sign : s.number r = 0 ∨ (s.number r).sign = (s.number a).sign

/-- The least signed word by minus one: the exact quotient is no signed word. -/
def OutOfRange (s : Sign) (a b : Word) : Prop :=
  s = .signed ∧ a.toInt = -2 ^ 31 ∧ b.toInt = -1

instance (s : Sign) (a b : Word) : Decidable (s.OutOfRange a b) :=
  inferInstanceAs (Decidable (_ ∧ _))

/-- What a division leaves. -/
structure Quotient (s : Sign) (a b q r : Word) (overflow : Bool) : Prop where
  exact : b ≠ 0 → ¬ s.OutOfRange a b → s.Divides a b q r ∧ overflow = false
  outOfRange : s.OutOfRange a b → q.toInt = -2 ^ 31 ∧ r = 0 ∧ overflow = true
  byZero : b = 0 → q.toNat = 2 ^ 32 - 1 ∧ r = a ∧ overflow = true

/-! ## Quotients and remainders of words -/

def quotient (s : Sign) (a b : Word) : Word :=
  if b = 0 then .allOnes 32 else .ofInt 32 ((s.number a).tdiv (s.number b))

def remainder (s : Sign) (a b : Word) : Word :=
  if b = 0 then a else .ofInt 32 ((s.number a).tmod (s.number b))

theorem number_eq_zero {s : Sign} {b : Word} : s.number b = 0 ↔ b = 0 := by
  cases s with
  | signed => rw [number, ← BitVec.toInt_zero (w := 32), BitVec.toInt_inj]; rfl
  | unsigned => rw [number, Int.natCast_eq_zero, ← BitVec.toNat_inj]; rfl

/-- The quotient is exact unless it is out of range. -/
theorem number_quotient {s : Sign} {a b : Word} (hb : b ≠ 0) (hrange : ¬ s.OutOfRange a b) :
    s.number (s.quotient a b) = (s.number a).tdiv (s.number b) := by
  rw [quotient, if_neg hb]
  cases s with
  | signed =>
    have hdiv : BitVec.ofInt 32 (a.toInt.tdiv b.toInt) = a.sdiv b := by
      rw [← BitVec.toInt_inj, BitVec.toInt_ofInt, BitVec.toInt_sdiv]
    have hor : a ≠ BitVec.intMin 32 ∨ b ≠ -1#32 := by
      by_contra hboth
      obtain ⟨rfl, rfl⟩ : a = BitVec.intMin 32 ∧ b = -1#32 := by
        simpa only [not_or, not_not] using hboth
      exact hrange ⟨rfl, by decide, by decide⟩
    rw [number, number, number, hdiv, BitVec.toInt_sdiv_of_ne_or_ne a b hor]
  | unsigned =>
    have hle : a.toNat / b.toNat ≤ a.toNat := Nat.div_le_self _ _
    have ha := a.isLt
    have hfits : unsigned.Fits .word ((a.toNat / b.toNat : Nat) : Int) :=
      (fits_unsigned_word _).2 ⟨Int.natCast_nonneg _, by omega⟩
    rw [number, number, number, ← Int.ofNat_tdiv]
    exact number_ofInt hfits

theorem number_remainder {s : Sign} {a b : Word} (hb : b ≠ 0) :
    s.number (s.remainder a b) = (s.number a).tmod (s.number b) := by
  rw [remainder, if_neg hb]
  cases s with
  | signed => rw [number, number, number, ← BitVec.toInt_srem, BitVec.ofInt_toInt]
  | unsigned =>
    have hle : a.toNat % b.toNat ≤ a.toNat := Nat.mod_le _ _
    have ha := a.isLt
    have hfits : unsigned.Fits .word ((a.toNat % b.toNat : Nat) : Int) :=
      (fits_unsigned_word _).2 ⟨Int.natCast_nonneg _, by omega⟩
    rw [number, number, number, ← Int.ofNat_tmod]
    exact number_ofInt hfits

theorem divides_quotient {s : Sign} {a b : Word} (hb : b ≠ 0) (hrange : ¬ s.OutOfRange a b) :
    s.Divides a b (s.quotient a b) (s.remainder a b) := by
  have hne : (s.number b).natAbs ≠ 0 := fun h =>
    hb (number_eq_zero.1 (Int.natAbs_eq_zero.1 h))
  constructor
  · rw [number_quotient hb hrange, number_remainder hb, Int.tdiv_mul_add_tmod]
  · have hlt : (s.number a).natAbs % (s.number b).natAbs < (s.number b).natAbs :=
      Nat.mod_lt _ (Nat.pos_of_ne_zero hne)
    rw [number_remainder hb, Int.abs_eq_natAbs, Int.abs_eq_natAbs, Int.natAbs_tmod]
    exact_mod_cast hlt
  · rw [number_remainder hb, Int.sign_tmod]
    split_ifs with hdvd
    · exact .inl (Int.tmod_eq_zero_of_dvd hdvd)
    · exact .inr rfl

theorem quotient_spec (s : Sign) (a b : Word) :
    s.Quotient a b (s.quotient a b) (s.remainder a b) (decide (b = 0 ∨ s.OutOfRange a b)) where
  exact hb hrange := ⟨divides_quotient hb hrange, decide_eq_false (not_or_intro hb hrange)⟩
  outOfRange := by
    rintro ⟨rfl, ha, hb⟩
    have hne : b ≠ 0 := by
      rintro rfl
      exact absurd hb (by decide)
    refine ⟨?_, ?_, decide_eq_true (.inr ⟨rfl, ha, hb⟩)⟩
    · rw [quotient, if_neg hne, number, number, ha, hb]
      decide
    · rw [remainder, if_neg hne, number, number, ha, hb]
      decide
  byZero := by
    rintro rfl
    refine ⟨?_, if_pos rfl, decide_eq_true (.inl rfl)⟩
    rw [quotient, if_pos rfl]
    decide

end Sign

/-! ## Expressions -/

theorem setWidth_eq_zero {y : Word} : y.setWidth 64 = 0 ↔ y = 0 := by
  rw [← BitVec.toNat_inj, ← BitVec.toNat_inj, BitVec.toNat_setWidth_of_le (by decide)]
  rfl

/-- Unsigned words are divided at 64 bits. -/
theorem setWidth_udiv (x y : Word) :
    (x.setWidth 64 / y.setWidth 64).setWidth 32 =
      BitVec.ofInt 32 ((x.toNat : Int).tdiv y.toNat) := by
  refine BitVec.eq_of_toNat_eq ?_
  rw [← Int.ofNat_tdiv, BitVec.ofInt_natCast, BitVec.toNat_setWidth, BitVec.toNat_udiv,
    BitVec.toNat_setWidth_of_le (by decide), BitVec.toNat_setWidth_of_le (by decide),
    BitVec.toNat_ofNat]

theorem setWidth_umod (x y : Word) :
    (x.setWidth 64 % y.setWidth 64).setWidth 32 =
      BitVec.ofInt 32 ((x.toNat : Int).tmod y.toNat) := by
  refine BitVec.eq_of_toNat_eq ?_
  rw [← Int.ofNat_tmod, BitVec.ofInt_natCast, BitVec.toNat_setWidth, BitVec.toNat_umod,
    BitVec.toNat_setWidth_of_le (by decide), BitVec.toNat_setWidth_of_le (by decide),
    BitVec.toNat_ofNat]

namespace Lift

/-- The operators for the quotient and the remainder. -/
def divideOps : Sign → BinOp × BinOp
  | .signed => (.divS, .modS)
  | .unsigned => (.divU, .modU)

variable {β : Type} [Bus β] {m : Machine β} {n : Nat} {a b : Expr} {x y : Word}

theorem yields_quotient (s : Sign) (ha : a.Yields m n x) (hb : b.Yields m n y) :
    (Expr.binary (divideOps s).1 .word a b).Yields m n (s.quotient x y) := by
  have hword : Width.word.bits = 32 := rfl
  have h : (Expr.binary (divideOps s).1 .word a b).Yields m n _ := ha.binary hb hword
  suffices hvalue : ((divideOps s).1.apply .word (x.setWidth 64) (y.setWidth 64)).setWidth 32 =
      s.quotient x y by rwa [hvalue] at h
  cases s with
  | signed =>
    simp only [divideOps, BinOp.apply, signedDivide, ha.signed_eq hword, hb.signed_eq hword,
      Sign.quotient, ← Sign.number_eq_zero (s := .signed) (b := y), Sign.number]
    split_ifs
    · decide
    · exact setWidth_ofInt (by decide) _
  | unsigned =>
    simp only [divideOps, BinOp.apply, Width.cut_word, setWidth_eq_zero, Sign.quotient, Sign.number]
    split_ifs
    · decide
    · exact setWidth_udiv x y

theorem yields_remainder (s : Sign) (ha : a.Yields m n x) (hb : b.Yields m n y) :
    (Expr.binary (divideOps s).2 .word a b).Yields m n (s.remainder x y) := by
  have hword : Width.word.bits = 32 := rfl
  have h : (Expr.binary (divideOps s).2 .word a b).Yields m n _ := ha.binary hb hword
  suffices hvalue : ((divideOps s).2.apply .word (x.setWidth 64) (y.setWidth 64)).setWidth 32 =
      s.remainder x y by rwa [hvalue] at h
  cases s with
  | signed =>
    simp only [divideOps, BinOp.apply, signedDivide, ha.signed_eq hword, hb.signed_eq hword,
      Sign.remainder, ← Sign.number_eq_zero (s := .signed) (b := y), Sign.number]
    split_ifs
    · exact ha.back
    · exact setWidth_ofInt (by decide) _
  | unsigned =>
    simp only [divideOps, BinOp.apply, Width.cut_word, setWidth_eq_zero, Sign.remainder,
      Sign.number]
    split_ifs
    · exact ha.back
    · exact setWidth_umod x y

/-- Overflow is what the reference says: a divisor of zero, or a quotient out of range. -/
theorem decides_divisionOverflow (s : Sign) (ha : a.Yields m n x) (hb : b.Yields m n y) :
    (divisionOverflow s a b).Decides m n (decide (y = 0 ∨ s.OutOfRange x y)) := by
  have hword : Width.word.bits = 32 := rfl
  have hzero := hb.eq (.const 0 hword) hword
  cases s with
  | unsigned =>
    have hvalue : (y = 0 ∨ Sign.unsigned.OutOfRange x y) ↔ y = (0 : Value).setWidth 32 := by
      simp [Sign.OutOfRange]
    rw [decide_eq_decide.2 hvalue]
    exact hzero
  | signed =>
    have hleast := ha.eq (.const 0x80000000 hword) hword
    have hminus := hb.eq (.const 0xFFFFFFFF hword) hword
    have hvalue : (y = 0 ∨ Sign.signed.OutOfRange x y) ↔ y = (0 : Value).setWidth 32 ∨
        x = (0x80000000 : Value).setWidth 32 ∧ y = (0xFFFFFFFF : Value).setWidth 32 := by
      rw [Sign.OutOfRange, ← BitVec.toInt_inj (x := x),
        ← BitVec.toInt_inj (y := BitVec.setWidth 32 0xFFFFFFFF)]
      simp
    rw [decide_eq_decide.2 hvalue, Bool.decide_or, Bool.decide_and]
    exact hzero.or (hleast.and hminus)

/-! ## Statements -/

/-- The statements of a division, with the operands read. -/
def setDivided (sign : Sign) (dst : Register) (a b : Expr) : Emit Unit := do
  let quotient ← temp (.binary (divideOps sign).1 .word a b)
  overflowStatus (divisionOverflow sign a b) quotient.advanced
  set dst (.pair (.binary (divideOps sign).2 .word a b) quotient)

end Lift

/-- What a division leaves: the words of its pair, and a report on them. -/
structure Machine.Divided {β : Type} (m : Machine β) (s : Sign) (a b : Word) (dst : Nat)
    (q r : Word) (m' : Machine β) : Prop where
  low : m'.core.read (.d dst) = q.setWidth 64
  high : m'.core.read (.d (dst + 1)) = r.setWidth 64
  quotient : s.Quotient a b q r (m'.core.flag .v)
  reports : m.ReportsOverflow (m'.core.flag .v) (q.getLsbD 31 ^^ q.getLsbD 30) m'

theorem Core.read_halves_of_e {c : Core} {n : Nat} {q r : Word} (h : c.read (.e n) = r ++ q) :
    c.read (.d n) = q.setWidth 64 ∧ c.read (.d (n + 1)) = r.setWidth 64 := by
  have happend : c.d.get (.ofNat 16 (n + 1)) ++ c.d.get (.ofNat 16 n) = r ++ q := h
  obtain ⟨hr, hq⟩ := append_eq_append_iff.1 happend
  exact ⟨congrArg (BitVec.setWidth 64) hq, congrArg (BitVec.setWidth 64) hr⟩

namespace Lift

variable {β : Type} [Bus β] {pc : Address} {s : Supply} {m m₁ : Machine β} {a b : Expr} {x y : Word}

theorem runs_setDivided (sign : Sign) {dst : Nat} (ha : a.Yields m s.temps x)
    (hb : b.Yields m s.temps y) (hpsw : m.core.psw = m₁.core.psw) :
    (setDivided sign (.e dst) a b).Runs pc s m fun _ _ m' =>
      m₁.Divided sign x y dst (sign.quotient x y) (sign.remainder x y) m' := by
  refine .bind (.temp (yields_quotient sign ha hb) (by decide) fun m₂ q hgrows₂ hpsw₂ hq => ?_)
  have ha := ha.mono hgrows₂ (Nat.le_succ _)
  have hb := hb.mono hgrows₂ (Nat.le_succ _)
  refine .bind (.overflowStatus (decides_divisionOverflow sign ha hb) (hq.advanced (by decide))
    fun m₃ hgrows₃ hm _ => ?_)
  have hpair := ((yields_remainder sign ha hb).pair hq).mono hgrows₃ le_rfl
  have hflag (f : Flag) : m₂.core.flag f = m₁.core.flag f := by
    rw [Core.flag, Core.flag, hpsw₂, hpsw]
  have hkept (f : Flag) (v : Value) :
      (m₃.withCore (·.write (.e dst) v)).core.flag f = m₃.core.flag f := rfl
  have hread := (Register.Takes.double dst).read_write m₃.core
    (sign.remainder x y ++ sign.quotient x y)
  rw [BitVec.setWidth_eq] at hread
  obtain ⟨hlow, hhigh⟩ := Core.read_halves_of_e hread
  refine .set hpair ?_
  rw [BitVec.setWidth_eq]
  refine ⟨hlow, hhigh, ?_, ?_⟩
  · rw [hkept, hm.v]
    exact sign.quotient_spec x y
  · refine ⟨rfl, ?_, (hkept _ _).trans hm.av, ?_⟩
    · rw [hkept, hkept, hm.sv, hm.v, hflag]
    · rw [hkept, hm.sav, hflag]

end Lift

/-! ## All divisions -/

/-- The rows of these instructions. -/
theorem Opcode.division_rows : ∀ g ∈ table, ∀ r ∈ g.rows,
    ∀ p ∈ [("div", Sign.signed), ("div.u", .unsigned)], r.mnemonic = p.1 →
      r.action = .divide p.2 ∧ r.operands.map (·.shape) = [.dataPair, .data, .data] := by
  decide +kernel

theorem Instruction.plan_divide {i : Instruction} {sign : Sign} {d : Register} {x y : Operand}
    (ha : i.row.action = .divide sign) (hops : i.operands = [.reg d, x, y])
    (hvalues : ∀ o ∈ i.operands, Role.value.takes o.shape = true) :
    i.plan = Lift.emitting (do
      let a ← Lift.temp x.expr
      let b ← Lift.temp y.expr
      Lift.setDivided sign d a b) := by
  have hsource := (operands_of_values hvalues).trans hops
  rw [Instruction.plan, ha, Lift.plan]
  unfold Lift.Plan.divide
  rw [Lift.Source.reg_of 0 hsource rfl,
    Lift.Source.value_of 1 hsource rfl (hvalues x (by simp [hops])),
    Lift.Source.value_of 2 hsource rfl (hvalues y (by simp [hops]))]
  cases sign <;> rfl

theorem Instruction.step_divide {β : Type} [Bus β] {isa : Isa} {m : Machine β} {i : Instruction}
    {sign : Sign} {dst : Nat} {x y : Operand} (hi : m.instruction? isa = some i)
    (ha : i.row.action = .divide sign) (hops : i.operands = [.reg (.e dst), x, y])
    (hx : x.IsWord) (hy : y.IsWord) :
    let a := x.word m.core
    let b := y.word m.core
    (m.step isa).2 = .done ∧
      m.Divided sign a b dst (sign.quotient a b) (sign.remainder a b) (m.step isa).1 := by
  have hvalues : ∀ o ∈ i.operands, Role.value.takes o.shape = true := by
    simp only [hops, List.forall_mem_cons]
    exact ⟨rfl, hx.takes, hy.takes, by simp⟩
  refine Machine.step_of_runs hi (plan_divide ha hops hvalues) fun s _ => ?_
  refine .bind (.temp (hx.yields m i _) (by decide) fun m₁ a hgrows₁ hpsw₁ ha => ?_)
  have hb := (hy.yields m i _).mono hgrows₁ (Nat.le_succ _)
  refine .bind (.temp hb (by decide) fun m₂ b hgrows₂ hpsw₂ hb => ?_)
  exact Lift.runs_setDivided sign (ha.mono hgrows₂ (Nat.le_succ _)) hb (hpsw₂.trans hpsw₁)

/-- Division satisfies the division identity, whatever the pair and the sources have in common. -/
theorem divisions_satisfy_identity {β : Type} [Bus β] (isa : Isa) (m : Machine β) {i : Instruction}
    {sign : Sign} (hi : m.instruction? isa = some i)
    (hname : (i.mnemonic, sign) ∈ [("div", Sign.signed), ("div.u", .unsigned)]) :
    ∃ (dst : Nat) (x y : Operand) (q r : Word), i.operands = [.reg (.e dst), x, y] ∧
      (m.step isa).2 = .done ∧
      m.Divided sign (x.word m.core) (y.word m.core) dst q r (m.step isa).1 := by
  obtain ⟨g, hg, hr, raw, addr, hos⟩ := Instruction.resolved hi
  obtain ⟨ha, hshapes⟩ := Opcode.division_rows g hg i.row hr _ hname rfl
  rw [← Instruction.shapes_of_resolved hos] at hshapes
  simp only [List.map_eq_cons_iff, List.map_eq_nil_iff] at hshapes
  obtain ⟨o, _, hops, ho, x, _, rfl, hx, y, _, rfl, hy, rfl⟩ := hshapes
  obtain ⟨dst, rfl⟩ := Operand.exists_dataPair ho
  exact ⟨dst, x, y, _, _, hops, Instruction.step_divide hi ha hops (.inl hx) (.inl hy)⟩

/-- `div e2, d2, d3`, where the least word is divided by minus one and both are overwritten. -/
def leastByMinusOne : Machine Window where
  core := (({} : Core).write (.d 2) 0x80000000).write (.d 3) 0xFFFFFFFF
  bus := { base := 0, size := 4, bytes := .putAll .empty 0 [0x4B, 0x32, 0x00, 0x22] }

theorem divisions_satisfy_identity_least :
    ∃ q r : Word, (leastByMinusOne.step .v16).2 = .done ∧
      (leastByMinusOne.step .v16).1.core.read (.d 2) = q.setWidth 64 ∧
      (leastByMinusOne.step .v16).1.core.read (.d 3) = r.setWidth 64 ∧
      q.toInt = -2 ^ 31 ∧ r = 0 ∧ (leastByMinusOne.step .v16).1.core.flag .v = true := by
  obtain ⟨i, hi, hname, hoperands⟩ : ∃ i, leastByMinusOne.instruction? .v16 = some i ∧
      (i.mnemonic, Sign.signed) ∈ [("div", Sign.signed), ("div.u", .unsigned)] ∧
      i.operands = [.reg (.e 2), .reg (.d 2), .reg (.d 3)] :=
    ⟨_, rfl, by decide +kernel, by decide +kernel⟩
  obtain ⟨dst, x, y, q, r, hops, hdone, hdivided⟩ :=
    divisions_satisfy_identity .v16 leastByMinusOne hi hname
  rw [hoperands] at hops
  obtain ⟨rfl, rfl, rfl⟩ : dst = 2 ∧ x = .reg (.d 2) ∧ y = .reg (.d 3) := by
    simpa [eq_comm] using hops
  exact ⟨q, r, hdone, hdivided.low, hdivided.high, hdivided.quotient.outOfRange (by decide)⟩

end Tricore
