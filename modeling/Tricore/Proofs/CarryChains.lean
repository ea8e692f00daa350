import Mathlib
import Tricore.Proofs.Accumulation

/-!
# Carry chains

Numbers of many words are added word by word, the lowest first: each instruction takes the carry
that the one before it left. `CarryLink` is one instruction of such a chain, with the machine it is
executed at; what happens between two of them is left open, as long as the carry stays
(`CarryLink.Continue`). A link adds its words and the carry exactly, in 33 bits
(`Machine.HoldsSum`), so a chain adds exactly too (`CarryLink.sum_of_chained`), and overflows in
two's complement if its last link does (`CarryLink.overflow_of_chained`). Subtraction adds the
complement and one.
-/

namespace Tricore

/-! ## Numbers of many words -/

namespace Words

/-- The number that words stand for, the lowest first. -/
def toNat (ws : List Word) : Nat := Nat.ofDigits (2 ^ 32) (ws.map BitVec.toNat)

/-- The number that words stand for in two's complement. -/
def toInt (ws : List Word) : Int := (toNat ws : Int).bmod (2 ^ (32 * ws.length))

theorem toNat_cons (w : Word) (ws : List Word) :
    toNat (w :: ws) = w.toNat + 2 ^ 32 * toNat ws := by
  rw [toNat, List.map_cons, Nat.ofDigits_cons]
  rfl

theorem pow_succ_words (n : Nat) : 2 ^ (32 * (n + 1)) = 2 ^ 32 * 2 ^ (32 * n) := by
  rw [Nat.mul_succ, Nat.pow_add, Nat.mul_comm]

theorem toNat_lt (ws : List Word) : toNat ws < 2 ^ (32 * ws.length) := by
  induction ws with
  | nil => decide
  | cons w ws ih =>
    have hw := w.isLt
    rw [toNat_cons, List.length_cons, pow_succ_words]
    generalize 2 ^ (32 * ws.length) = q at ih ⊢
    omega

/-- The complement of every word is the complement of the number. -/
theorem toNat_not (ws : List Word) :
    toNat (ws.map (~~~·)) + toNat ws + 1 = 2 ^ (32 * ws.length) := by
  induction ws with
  | nil => rfl
  | cons w ws ih =>
    have hw := w.isLt
    rw [List.map_cons, toNat_cons, toNat_cons, List.length_cons, pow_succ_words, ← ih,
      BitVec.toNat_not]
    omega

/-- With the complement and one, a sum is a difference and a carry. -/
theorem add_not_mod (a : Nat) (b : List Word) :
    (((a + toNat (b.map (~~~·)) + 1) % 2 ^ (32 * b.length) : Nat) : Int) =
      ((a : Int) - toNat b) % 2 ^ (32 * b.length) := by
  have hnot := toNat_not b
  have hwide : ((a + toNat (b.map (~~~·)) + 1 : Nat) : Int) =
      a - toNat b + (2 ^ (32 * b.length) : Nat) := by omega
  rw [Int.natCast_emod, hwide, Int.add_emod_right]
  push_cast
  rfl

theorem le_add_not_iff (a : Nat) (b : List Word) :
    2 ^ (32 * b.length) ≤ a + toNat (b.map (~~~·)) + 1 ↔ toNat b ≤ a := by
  have hnot := toNat_not b
  omega

/-- The range of two's complement has two halves. -/
theorem pow_eq_two_mul {n : Nat} (hn : n ≠ 0) : 2 ^ (32 * n) = 2 * 2 ^ (32 * n - 1) := by
  obtain ⟨k, hk⟩ : ∃ k, 32 * n = k + 1 := Nat.exists_eq_succ_of_ne_zero (by omega)
  rw [hk, Nat.add_sub_cancel, Nat.pow_succ']

section Signed

variable {ws : List Word} {q : Nat} (hq : 2 ^ (32 * ws.length) = 2 * q)
include hq

/-- In two's complement the upper half of the range is negative. -/
theorem toInt_eq : toInt ws = if toNat ws < q then (toNat ws : Int) else toNat ws - 2 * q := by
  have hlt := toNat_lt ws
  rw [hq] at hlt
  have hmod : (toNat ws : Int) % (2 * q : Nat) = toNat ws :=
    Int.emod_eq_of_lt (Int.natCast_nonneg _) (by exact_mod_cast hlt)
  rw [toInt, hq, Int.bmod_def, hmod]
  split_ifs <;> omega

/-- The words above the lowest one have the sign. -/
theorem toInt_cons (w : Word) : toInt (w :: ws) = w.toNat + 2 ^ 32 * toInt ws := by
  have hw := w.isLt
  have hq' : 2 ^ (32 * (w :: ws).length) = 2 * (2 ^ 32 * q) := by
    rw [List.length_cons, pow_succ_words, hq, Nat.mul_left_comm]
  rw [toInt_eq hq', toInt_eq hq, toNat_cons]
  split_ifs <;> push_cast <;> omega

theorem toInt_not : toInt (ws.map (~~~·)) = -1 - toInt ws := by
  have hsum := toNat_not ws
  have hq' : 2 ^ (32 * (ws.map (~~~·)).length) = 2 * q := by rw [List.length_map, hq]
  rw [toInt_eq hq', toInt_eq hq]
  split_ifs <;> omega

end Signed

theorem toInt_singleton (w : Word) : toInt [w] = w.toInt := by
  have hnil : toNat [] = 0 := rfl
  rw [toInt_eq (q := 2 ^ 31) rfl, toNat_cons, hnil, BitVec.toInt_eq_toNat_cond]
  split_ifs <;> omega

end Words

/-! ## Links -/

namespace Lift

/-- What is added to two words: the carry, or one if the second of them is a complement. -/
def carryIn (subtract takes : Bool) : Expr :=
  if takes then .zext .double (.flag .c) else .const .double (if subtract then 1 else 0)

/-- The second word of a sum, or its complement. -/
def term (subtract : Bool) (y : Word) : Word := if subtract then ~~~y else y

/-- The statements of a link, with the operands read. -/
def addWithCarry (subtract takes : Bool) (dst : Register) (x y : Expr) : Emit Unit := do
  let x ← temp x
  let y ← temp (if subtract then .not .word y else y)
  let unsigned ← temp (.add .double
    (.add .double (.zext .double x) (.zext .double y)) (carryIn subtract takes))
  let signed ← temp (.add .double
    (.add .double (.sext .double x) (.sext .double y)) (carryIn subtract takes))
  let result ← temp (.low .word unsigned)
  setFlag .c (unsigned.bit 32)
  status (signed.overflow .word .signed) result.advanced
  set dst result

variable {β : Type} [Bus β] {pc : Address} {s : Supply} {m m₁ : Machine β}
  {subtract takes : Bool} {dst : Nat} {a b : Expr} {x y : Word} {z : Int}

/-- The carry that a link takes in. -/
def taken (subtract takes : Bool) (c : Core) : Bool := if takes then c.flag .c else subtract

theorem eval_carryIn (m : Machine β) :
    (carryIn subtract takes).eval m =
      .ok (BitVec.ofInt 64 (taken subtract takes m.core).toNat) := by
  unfold carryIn taken
  cases takes with
  | true =>
    simp only [if_true, Expr.zext, Expr.eval, bind, Except.bind]
    cases m.core.flag .c <;> rfl
  | false => cases subtract <;> rfl

/-- The carry is added to a sum while the status word is still as it was. -/
theorem runs_temp_carryIn (ha : a.Carries m s.temps z) (hpsw : m.core.psw = m₁.core.psw)
    {Q : Expr → Supply → Machine β → Prop}
    (hQ : ∀ m' e, m.Grows s.temps m' → m'.core.psw = m₁.core.psw →
      e.Carries m' (s.temps + 1) (z + (taken subtract takes m₁.core).toNat) →
        Q e { s with temps := s.temps + 1 } m') :
    (temp (.add .double a (carryIn subtract takes))).Runs pc s m Q := by
  have htaken : taken subtract takes m.core = taken subtract takes m₁.core := by
    rw [taken, taken, Core.flag, Core.flag, hpsw]
  have hsum : (Expr.add .double a (carryIn subtract takes)).eval m =
      .ok ((BitVec.ofInt 64 (z + (taken subtract takes m₁.core).toNat)).setWidth 64) := by
    simp only [Expr.add, Expr.eval, ha.eval m (.refl m _), eval_carryIn, htaken, bind, Except.bind]
    refine congrArg Except.ok ((Width.cut_eq (k := 64) rfl _).trans ?_)
    rw [BitVec.ofInt_add, BitVec.setWidth_eq, BitVec.setWidth_eq, BitVec.setWidth_eq]
    rfl
  exact .temp_now rfl hsum (show 32 ≤ 64 by decide) fun m' e hgrows hpsw' he =>
    hQ m' e hgrows (hpsw'.trans hpsw) he

theorem getLsbD_thirtyTwo {n : Nat} (h : n < 2 ^ 33) :
    (BitVec.ofInt 64 (n : Int)).getLsbD 32 = decide (2 ^ 32 ≤ n) := by
  rw [BitVec.ofInt_natCast, BitVec.getLsbD_ofNat, Nat.testBit_eq_decide_div_mod_eq,
    decide_eq_true (by decide : 32 < 64), Bool.true_and, decide_eq_decide]
  omega

/-- The low word and the carry are all of the sum. -/
theorem mod_add_carry {n : Nat} (h : n < 2 ^ 33) :
    n % 2 ^ 32 + 2 ^ 32 * (decide (2 ^ 32 ≤ n)).toNat = n := by
  by_cases hcarry : 2 ^ 32 ≤ n
  · rw [decide_eq_true hcarry, Bool.toNat_true]
    omega
  · rw [decide_eq_false hcarry, Bool.toNat_false]
    omega

end Lift

/-- The register and the flags hold a sum of two words and a carry. -/
structure Machine.HoldsSum {β : Type} (m : Machine β) (x y : Word) (c : Bool) (dst : Nat) :
    Prop where
  sum : ((Operand.reg (.d dst)).word m.core).toNat + 2 ^ 32 * (m.core.flag .c).toNat =
    x.toNat + y.toNat + c.toNat
  overflow : m.core.flag .v = !decide (Sign.signed.Fits .word (x.toInt + y.toInt + c.toNat))

namespace Lift

variable {β : Type} [Bus β] {pc : Address} {s : Supply} {m m₁ : Machine β}
  {subtract takes : Bool} {dst : Nat} {a b : Expr} {x y : Word}

/-- The low word, the carry and the overflow of a sum that is known exactly. -/
theorem runs_setSum {u v : Expr} {total : Nat} {z : Int} (hu : u.Carries m s.temps total)
    (htotal : total < 2 ^ 33) (hv : v.Carries m s.temps z) (hz : Sign.signed.Fits .double z) :
    (do
      let result ← temp (.low .word u)
      setFlag .c (u.bit 32)
      status (v.overflow .word .signed) result.advanced
      set (.d dst) result : Emit Unit).Runs pc s m fun _ _ m' =>
        ((Operand.reg (.d dst)).word m'.core).toNat + 2 ^ 32 * (m'.core.flag .c).toNat = total ∧
          m'.core.flag .v = !decide (Sign.signed.Fits .word z) := by
  refine .bind (.temp hu.low_word (by decide) fun m₂ r hgrows₂ _ hr => ?_)
  have hu : u.Carries m₂ _ _ := hu.mono hgrows₂ (Nat.le_succ _)
  have hv : v.Carries m₂ _ _ := hv.mono hgrows₂ (Nat.le_succ _)
  have hcarry := Expr.Yields.bit hu (show 32 < 64 by decide)
  rw [getLsbD_thirtyTwo htotal] at hcarry
  refine .bind (.setFlag hcarry ?_)
  have hgrows₃ {n : Nat} {t : Bool} : m₂.Grows n (m₂.withCore (·.setFlag .c t)) :=
    (Machine.Grows.refl m₂ n).setFlag
  refine .mono (runs_report ((hv.overflow hz).mono hgrows₃ le_rfl)
    ((hr.advanced (by decide)).mono hgrows₃ le_rfl) (hr.mono hgrows₃ le_rfl) (.word dst) rfl rfl)
    fun _ _ m₄ h => ?_
  obtain ⟨hreports, hread, hc⟩ := h
  refine ⟨?_, hreports.v⟩
  rw [Operand.word_of_read hread, hc, Machine.withCore, Core.flag_setFlag, BitVec.ofInt_natCast,
    BitVec.toNat_ofNat]
  exact mod_add_carry htotal

theorem runs_addWithCarry (ha : a.Yields m s.temps x) (hb : b.Yields m s.temps y)
    (hpsw : m.core.psw = m₁.core.psw) :
    (addWithCarry subtract takes (.d dst) a b).Runs pc s m fun _ _ m' =>
      m'.HoldsSum x (term subtract y) (taken subtract takes m₁.core) dst := by
  refine .bind (.temp ha (by decide) fun m₂ x' hgrows₂ hpsw₂ hx => ?_)
  have hterm : (if subtract then .not .word b else b).Yields m₂ (s.temps + 1)
      (term subtract y) := by
    have hb₂ := hb.mono hgrows₂ (Nat.le_succ _)
    cases subtract with
    | true => exact hb₂.not rfl
    | false => exact hb₂
  refine .bind (.temp hterm (by decide) fun m₃ y' hgrows₃ hpsw₃ hy => ?_)
  have hx := hx.mono hgrows₃ (Nat.le_succ _)
  refine .bind (runs_temp_carryIn (.add (.extend .unsigned hx) (.extend .unsigned hy))
    (hpsw₃.trans (hpsw₂.trans hpsw)) fun m₄ u hgrows₄ hpsw₄ hu => ?_)
  have hx := hx.mono hgrows₄ (Nat.le_succ _)
  have hy := hy.mono hgrows₄ (Nat.le_succ _)
  refine .bind (runs_temp_carryIn (.add (.extend .signed hx) (.extend .signed hy)) hpsw₄
    fun m₅ v hgrows₅ _ hv => ?_)
  generalize term subtract y = y, taken subtract takes m₁.core = c at hu hv ⊢
  have hx32 := x.isLt
  have hy32 := y.isLt
  have hc := c.toNat_le
  have hu : u.Carries m₅ (s.temps + 1 + 1 + 1 + 1) (x.toNat + y.toNat + c.toNat : Nat) := by
    push_cast
    exact hu.mono hgrows₅ (Nat.le_succ _)
  have hfits : Sign.signed.Fits .double (x.toInt + y.toInt + c.toNat) := by
    have hx := abs_le.1 (abs_toInt_le x)
    have hy := abs_le.1 (abs_toInt_le y)
    refine fits_of_abs_lt (abs_lt.2 ?_)
    omega
  refine .mono (runs_setSum hu (by omega) hv hfits) fun _ _ m' h => ?_
  exact ⟨h.1, h.2⟩

end Lift

/-! ## Chains -/

/-- The names of the instructions in a chain. The first one takes no carry in. -/
def carryName (subtract takes : Bool) : String :=
  match subtract, takes with
  | false, false => "addx"
  | false, true => "addc"
  | true, false => "subx"
  | true, true => "subc"

def carryAction (subtract takes : Bool) : Action :=
  match subtract, takes with
  | false, false => .addExtended
  | false, true => .addCarry
  | true, false => .subExtended
  | true, true => .subCarry

theorem Opcode.carry_rows : ∀ g ∈ table, ∀ r ∈ g.rows, ∀ subtract takes,
    r.mnemonic = carryName subtract takes → r.action = carryAction subtract takes ∧
      ∃ source ∈ [Shape.data, .imm], r.operands.map (·.shape) = [.data, .data, source] := by
  decide +kernel

/-- One instruction of a chain: the machine it is executed at, the words it takes and the number of
the data register it writes. -/
structure CarryLink (β : Type) where
  machine : Machine β
  x : Word
  y : Word
  dst : Nat

namespace CarryLink

variable {β : Type} [Bus β] {isa : Isa} {subtract takes c : Bool} {l : CarryLink β}
  {ls : List (CarryLink β)}

/-- The instruction at the program counter has this name, and the words are what its operands
hold. -/
def Executes (isa : Isa) (name : String) (l : CarryLink β) : Prop :=
  ∃ i a b, l.machine.instruction? isa = some i ∧ i.mnemonic = name ∧
    i.operands = [.reg (.d l.dst), a, b] ∧ a.word l.machine.core = l.x ∧
    b.word l.machine.core = l.y

def after (isa : Isa) (l : CarryLink β) : Machine β := (l.machine.step isa).1

/-- The word that the instruction leaves in its register. -/
def result (isa : Isa) (l : CarryLink β) : Word := (Operand.reg (.d l.dst)).word (l.after isa).core

/-- The carry that it leaves. -/
def carry (isa : Isa) (l : CarryLink β) : Bool := (l.after isa).core.flag .c

/-- The links take a carry in, each the one that was left before it. -/
def Continue (isa : Isa) (name : String) : Bool → List (CarryLink β) → Prop
  | _, [] => True
  | c, l :: ls =>
    l.Executes isa name ∧ l.machine.core.flag .c = c ∧ Continue isa name (l.carry isa) ls

/-- The links add, each with the carry of the one before it. -/
def Chained (isa : Isa) (subtract : Bool) : Bool → List (CarryLink β) → Prop
  | _, [] => True
  | c, l :: ls =>
    (l.machine.step isa).2 = .done ∧ (l.after isa).HoldsSum l.x (Lift.term subtract l.y) c l.dst ∧
      Chained isa subtract (l.carry isa) ls

/-- The carry that is left in the end. -/
def lastCarry (isa : Isa) : Bool → List (CarryLink β) → Bool
  | c, [] => c
  | _, l :: ls => lastCarry isa (l.carry isa) ls

theorem lastCarry_eq (l : CarryLink β) (ls : List (CarryLink β)) :
    lastCarry isa (l.carry isa) ls = (ls.getLastD l).carry isa := by
  induction ls generalizing l with
  | nil => rfl
  | cons l' ls ih => rw [List.getLastD_cons, ← ih, lastCarry]

theorem step_of_executes (h : l.Executes isa (carryName subtract takes)) :
    (l.machine.step isa).2 = .done ∧ (l.after isa).HoldsSum l.x (Lift.term subtract l.y)
      (Lift.taken subtract takes l.machine.core) l.dst := by
  obtain ⟨i, a, b, hi, hname, hops, hx, hy⟩ := h
  obtain ⟨g, hg, hr, raw, addr, hos⟩ := Instruction.resolved hi
  obtain ⟨haction, source, hsource, hshapes⟩ := Opcode.carry_rows g hg i.row hr _ _ hname
  rw [← Instruction.shapes_of_resolved hos, hops] at hshapes
  obtain ⟨ha, hb⟩ : a.IsWord ∧ b.IsWord := by
    simp only [List.map_cons, List.map_nil, List.cons.injEq, and_true] at hshapes
    obtain ⟨-, ha, rfl⟩ := hshapes
    exact ⟨.inl ha, by simpa [Operand.IsWord] using hsource⟩
  have hbinary := Instruction.binary_of_values hops <| by
    simp only [hops, List.forall_mem_cons]
    exact ⟨rfl, ha.takes, hb.takes, by simp⟩
  have hplan : i.plan = Lift.emitting
      (Lift.addWithCarry subtract takes (.d l.dst) a.expr b.expr) := by
    have hcarry : i.plan = Lift.Plan.carry subtract takes (.of i) := by
      rw [Instruction.plan, haction]
      cases subtract <;> cases takes <;> rfl
    rw [hcarry, Lift.Plan.carry, hbinary]
    rfl
  rw [← hx, ← hy]
  exact Machine.step_of_runs hi hplan fun s _ =>
    Lift.runs_addWithCarry (ha.yields _ i _) (hb.yields _ i _) rfl

theorem chained_of_continue (h : Continue isa (carryName subtract true) c ls) :
    Chained isa subtract c ls := by
  induction ls generalizing c with
  | nil => trivial
  | cons l ls ih =>
    obtain ⟨hl, hc, hls⟩ := h
    obtain ⟨hdone, hsum⟩ := step_of_executes hl
    rw [Lift.taken, if_pos rfl, hc] at hsum
    exact ⟨hdone, hsum, ih hls⟩

theorem done_of_chained (h : Chained isa subtract c ls) :
    ∀ l ∈ ls, (l.machine.step isa).2 = .done := by
  induction ls generalizing c with
  | nil => simp
  | cons l ls ih =>
    obtain ⟨hdone, -, hls⟩ := h
    exact List.forall_mem_cons.2 ⟨hdone, ih hls⟩

/-- A chain adds exactly: nothing but the last carry is lost. -/
theorem sum_of_chained (h : Chained isa subtract c ls) :
    Words.toNat (ls.map (·.result isa)) +
        2 ^ (32 * ls.length) * (lastCarry isa c ls).toNat =
      Words.toNat (ls.map (·.x)) + Words.toNat (ls.map fun l => Lift.term subtract l.y) +
        c.toNat := by
  induction ls generalizing c with
  | nil => simp [lastCarry, Words.toNat]
  | cons l ls ih =>
    obtain ⟨-, hsum, hls⟩ := h
    have hstep : (l.result isa).toNat + 2 ^ 32 * (l.carry isa).toNat =
      l.x.toNat + (Lift.term subtract l.y).toNat + c.toNat := hsum.sum
    have hrest := ih hls
    simp only [List.map_cons, Words.toNat_cons, List.length_cons, Words.pow_succ_words, lastCarry,
      Nat.mul_assoc]
    generalize 2 ^ (32 * ls.length) * (lastCarry isa (l.carry isa) ls).toNat = q at hrest ⊢
    omega

/-- A chain overflows in two's complement if its last link does: below it, words are not
negative. -/
theorem overflow_of_chained {q : Nat} (h : Chained isa subtract c (l :: ls))
    (hq : 2 ^ (32 * (l :: ls).length) = 2 * q) :
    let z := Words.toInt ((l :: ls).map (·.x)) +
      Words.toInt ((l :: ls).map fun l => Lift.term subtract l.y) + c.toNat
    ((ls.getLastD l).after isa).core.flag .v = !decide (-q ≤ z ∧ z < q) := by
  induction ls generalizing l c q with
  | nil =>
    obtain ⟨-, hsum, -⟩ := h
    obtain rfl : q = 2 ^ 31 := by
      simp only [List.length_cons, List.length_nil] at hq
      omega
    simp only [List.map_cons, List.map_nil, Words.toInt_singleton]
    refine hsum.overflow.trans ?_
    simp only [Sign.fits_signed]
    rfl
  | cons l' ls ih =>
    obtain ⟨-, hsum, hls⟩ := h
    have hstep : (l.result isa).toNat + 2 ^ 32 * (l.carry isa).toNat =
      l.x.toNat + (Lift.term subtract l.y).toNat + c.toNat := hsum.sum
    have hresult := (l.result isa).isLt
    obtain ⟨r, hr⟩ : ∃ r, 2 ^ (32 * (l' :: ls).length) = 2 * r :=
      ⟨_, Words.pow_eq_two_mul (List.length_pos_iff.2 (List.cons_ne_nil _ _)).ne'⟩
    have hxs : Words.toInt ((l :: l' :: ls).map (·.x)) =
        l.x.toNat + 2 ^ 32 * Words.toInt ((l' :: ls).map (·.x)) :=
      Words.toInt_cons (by rw [List.length_map, hr]) l.x
    have hys : Words.toInt ((l :: l' :: ls).map fun l => Lift.term subtract l.y) =
        (Lift.term subtract l.y).toNat +
          2 ^ 32 * Words.toInt ((l' :: ls).map fun l => Lift.term subtract l.y) :=
      Words.toInt_cons (by rw [List.length_map, hr]) (Lift.term subtract l.y)
    rw [List.length_cons, Words.pow_succ_words, hr] at hq
    intro z
    rw [List.getLastD_cons, ih hls hr, ← decide_not, ← decide_not, decide_eq_decide]
    simp only [z, hxs, hys]
    omega

end CarryLink

/-- The number is none of two's complement with this many words. -/
def Words.Overflows (n : Nat) (z : Int) : Prop := z < -2 ^ (32 * n - 1) ∨ 2 ^ (32 * n - 1) ≤ z

instance (n : Nat) (z : Int) : Decidable (Words.Overflows n z) :=
  inferInstanceAs (Decidable (_ ∨ _))

theorem Words.overflows_iff (n : Nat) (z : Int) :
    (!decide (-((2 ^ (32 * n - 1) : Nat) : Int) ≤ z ∧ z < (2 ^ (32 * n - 1) : Nat))) = true ↔
      Overflows n z := by
  rw [Bool.not_eq_true', decide_eq_false_iff_not, Overflows]
  push_cast
  generalize (2 : Int) ^ (32 * n - 1) = q
  omega

/-- A sum is taken apart into what fits and a carry in one way only. -/
theorem Words.eq_mod_of_add_carry {r q t : Nat} {c : Bool} (hlt : r < q)
    (h : r + q * c.toNat = t) : r = t % q ∧ (c = true ↔ q ≤ t) := by
  subst h
  cases c with
  | false =>
    rw [Bool.toNat_false, Nat.mul_zero, Nat.add_zero, Nat.mod_eq_of_lt hlt]
    exact ⟨rfl, by simpa using hlt⟩
  | true =>
    rw [Bool.toNat_true, Nat.mul_one, Nat.add_mod_right, Nat.mod_eq_of_lt hlt]
    exact ⟨rfl, by simp⟩

/-- Chains of additions or subtractions match integer arithmetic on numbers of as many words as
there are links. -/
theorem carry_chains_match_integers {β : Type} [Bus β] (isa : Isa) (subtract : Bool)
    {first : CarryLink β} {rest : List (CarryLink β)}
    (hfirst : first.Executes isa (carryName subtract false))
    (hrest : CarryLink.Continue isa (carryName subtract true) (first.carry isa) rest) :
    let links := first :: rest
    let a := links.map (·.x)
    let b := links.map (·.y)
    let last := (rest.getLastD first).after isa
    (∀ l ∈ links, (l.machine.step isa).2 = .done) ∧
      if subtract then
        (Words.toNat (links.map (·.result isa)) : Int) =
            ((Words.toNat a : Int) - Words.toNat b) % 2 ^ (32 * links.length) ∧
          (last.core.flag .c = true ↔ Words.toNat b ≤ Words.toNat a) ∧
          (last.core.flag .v = true ↔
            Words.Overflows links.length (Words.toInt a - Words.toInt b))
      else
        Words.toNat (links.map (·.result isa)) =
            (Words.toNat a + Words.toNat b) % 2 ^ (32 * links.length) ∧
          (last.core.flag .c = true ↔ 2 ^ (32 * links.length) ≤ Words.toNat a + Words.toNat b) ∧
          (last.core.flag .v = true ↔
            Words.Overflows links.length (Words.toInt a + Words.toInt b)) := by
  intro links a b last
  have hchained : CarryLink.Chained isa subtract subtract links := by
    obtain ⟨hdone, hsum⟩ := CarryLink.step_of_executes hfirst
    exact ⟨hdone, hsum, CarryLink.chained_of_continue hrest⟩
  have hhalf : 2 ^ (32 * links.length) = 2 * 2 ^ (32 * links.length - 1) :=
    Words.pow_eq_two_mul (Nat.succ_ne_zero _)
  have hoverflow := CarryLink.overflow_of_chained hchained hhalf
  have hcarry : CarryLink.lastCarry isa subtract links = last.core.flag .c :=
    CarryLink.lastCarry_eq first rest
  have hlt := Words.toNat_lt (links.map (·.result isa))
  rw [List.length_map] at hlt
  have hsum : Words.toNat (links.map (·.result isa)) +
      2 ^ (32 * links.length) * (last.core.flag .c).toNat =
        Words.toNat a + Words.toNat (links.map fun l => Lift.term subtract l.y) + subtract.toNat :=
    hcarry ▸ CarryLink.sum_of_chained hchained
  obtain ⟨hmod, hc⟩ := Words.eq_mod_of_add_carry hlt hsum
  have hv : last.core.flag .v = true ↔ Words.Overflows links.length
      (Words.toInt a + Words.toInt (links.map fun l => Lift.term subtract l.y) + subtract.toNat) :=
    (iff_of_eq (congrArg (· = true) hoverflow)).trans (Words.overflows_iff ..)
  refine ⟨CarryLink.done_of_chained hchained, ?_⟩
  cases subtract with
  | false =>
    have hzero : ((false.toNat : Nat) : Int) = 0 := rfl
    rw [hzero, Int.add_zero] at hv
    exact ⟨hmod, hc, hv⟩
  | true =>
    have hlength : b.length = links.length := List.length_map _
    have hnot : (links.map fun l => Lift.term true l.y) = b.map (~~~·) := by
      rw [List.map_map]
      rfl
    rw [hnot, Bool.toNat_true, ← hlength] at hmod hc
    rw [hnot, Bool.toNat_true, Words.toInt_not (hlength ▸ hhalf),
      show Words.toInt a + (-1 - Words.toInt b) + (1 : Nat) = Words.toInt a - Words.toInt b by
        omega] at hv
    refine ⟨?_, hc.trans (Words.le_add_not_iff _ b), hv⟩
    rw [hmod, ← hlength]
    exact Words.add_not_mod _ b

/-- `addx d2, d1, d2` and `addc d1, d1, d1` to execute, where every data register holds the largest
word. -/
def longSum : Machine Window where
  core := { d := .replicate 16 0xFFFFFFFF }
  bus :=
    { base := 0
      size := 8
      bytes := .putAll .empty 0 [0x0B, 0x21, 0x40, 0x20, 0x0B, 0x11, 0x50, 0x10] }

/-- The largest number of two words, added to itself with the registers overwritten on the way. -/
theorem carry_chains_match_integers_addx :
    Words.toNat [(Operand.reg (.d 2)).word (longSum.step .v16).1.core,
        (Operand.reg (.d 1)).word ((longSum.step .v16).1.step .v16).1.core] = 2 ^ 64 - 2 ∧
      ((longSum.step .v16).1.step .v16).1.core.flag .c = true ∧
      ((longSum.step .v16).1.step .v16).1.core.flag .v = false := by
  have hfirst : CarryLink.Executes .v16 (carryName false false)
      ⟨longSum, 0xFFFFFFFF, 0xFFFFFFFF, 2⟩ :=
    ⟨_, .reg (.d 1), .reg (.d 2), rfl, by decide +kernel, by decide +kernel, by decide +kernel,
      by decide +kernel⟩
  have hrest : CarryLink.Continue .v16 (carryName false true)
      (CarryLink.carry .v16 ⟨longSum, 0xFFFFFFFF, 0xFFFFFFFF, 2⟩)
      [⟨(longSum.step .v16).1, 0xFFFFFFFF, 0xFFFFFFFF, 1⟩] :=
    ⟨⟨_, .reg (.d 1), .reg (.d 1), rfl, by decide +kernel, by decide +kernel, by decide +kernel,
      by decide +kernel⟩, rfl, trivial⟩
  obtain ⟨-, hsum, hc, hv⟩ := carry_chains_match_integers .v16 false hfirst hrest
  refine ⟨hsum.trans (by decide +kernel), hc.2 (by decide +kernel), ?_⟩
  exact Bool.eq_false_iff.2 fun h => absurd (hv.1 h) (by decide +kernel)

end Tricore
