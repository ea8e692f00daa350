import Mathlib
import Tricore.Proofs.ExactResults

/-!
# Multiply-accumulate of whole registers

`ProductForm` is what the name of a multiply instruction stands for: signedness, what becomes of the
product, and saturation. Every such instruction computes the integer its name says, reports on it
and keeps as much of it as its destination takes (`products_match_integers`), with two exceptions.
The saturating unsigned product of words is one. The other is the advanced overflow of saturating
unsigned multiply-accumulate into a word: it is taken from the bounded product
(`bounded_products_advance`).
-/

namespace Tricore

open Lift (wideProduct boundedProduct wideSum)

/-! ## Forms -/

/-- What the name of a multiply instruction stands for. -/
structure ProductForm where
  sign : Sign
  op : Accumulate
  saturates : Bool
  deriving DecidableEq

namespace ProductForm

/-- Products and multiply-accumulate of whole registers, except `muls.u`. -/
def named : List (String × ProductForm) :=
  [("mul", ⟨.signed, .none, false⟩), ("muls", ⟨.signed, .none, true⟩),
    ("madd", ⟨.signed, .add, false⟩), ("madds", ⟨.signed, .add, true⟩),
    ("msub", ⟨.signed, .sub, false⟩), ("msubs", ⟨.signed, .sub, true⟩),
    ("mul.u", ⟨.unsigned, .none, false⟩),
    ("madd.u", ⟨.unsigned, .add, false⟩), ("madds.u", ⟨.unsigned, .add, true⟩),
    ("msub.u", ⟨.unsigned, .sub, false⟩), ("msubs.u", ⟨.unsigned, .sub, true⟩)]

/-- The exact result, from all operands as numbers. The first is the destination, and of two
operands also a source. -/
def result? (f : ProductForm) (numbers : List Int) : Option Int :=
  match f.op, numbers with
  | .none, [x, y] | .none, [_, x, y] => some (x * y)
  | .add, [_, acc, x, y] => some (acc + x * y)
  | .sub, [_, acc, x, y] => some (acc - x * y)
  | _, _ => none

end ProductForm

/-- A data register, or a pair of them. -/
def Register.whole (wide : Bool) (n : Nat) : Register := if wide then .e n else .d n

def Shape.whole (wide : Bool) : Shape := if wide then .dataPair else .data

/-- The rows of these instructions. -/
theorem Opcode.product_rows : ∀ g ∈ table, ∀ r ∈ g.rows, ∀ p ∈ ProductForm.named,
    r.mnemonic = p.1 → ∃ wide ∈ [false, true], ∃ source ∈ [Shape.data, .imm],
      if p.2.op = .none then
        r.action = .multiply p.2.sign wide p.2.saturates ∧
          (r.operands.map (·.shape) = [.whole wide, .data, source] ∨
            wide = false ∧ r.operands.map (·.shape) = [.data, source])
      else
        r.action = .multiplyAdd (p.2.op = .sub) p.2.sign wide p.2.saturates ∧
          r.operands.map (·.shape) = [.whole wide, .whole wide, .data, source] := by
  decide +kernel

/-! ## Operands -/

namespace Sign

/-- 64 bits hold every product of words. -/
theorem fits_product (s : Sign) (x y : Word) : s.Fits .double (s.number x * s.number y) := by
  cases s with
  | signed =>
    have hlo : -2 ^ 62 ≤ x.toInt * y.toInt := BitVec.le_toInt_mul_toInt
    have hhi : x.toInt * y.toInt ≤ 2 ^ 62 := BitVec.toInt_mul_toInt_le
    refine fits_signed.2 ⟨?_, ?_⟩ <;> simp only [number, Width.bits, Width.bytes] <;> omega
  | unsigned =>
    have hlt : (x.toNat * y.toNat : Int) < 2 ^ 64 := by exact_mod_cast product_lt x y
    exact fits_unsigned.2 ⟨by simp only [number]; positivity, hlt⟩

end Sign

theorem wideProduct_eq (s : Sign) (x y : Word) :
    wideProduct s x y = BitVec.ofInt 64 (s.number x * s.number y) := by
  rw [wideProduct, Sign.widen_eq_ofInt, Sign.widen_eq_ofInt, BitVec.ofInt_mul]

/-- A signed product needs no bound. -/
theorem wideSum_signed (subtract : Bool) (acc x y : Word) :
    wideSum subtract .signed acc x y = BitVec.ofInt 64
      ((if subtract then .sub else .add : Accumulate).sum acc.toInt (x.toInt * y.toInt)) := by
  have hproduct : boundedProduct .signed x y = BitVec.ofInt 64 (x.toInt * y.toInt) :=
    wideProduct_eq .signed x y
  cases subtract with
  | true => exact (congrArg _ hproduct).trans (ofInt_sub 64 _ _).symm
  | false => exact (congrArg _ hproduct).trans (BitVec.ofInt_add _ _).symm

namespace Operand

theorem exists_data {o : Operand} (h : o.shape = .data) : ∃ n, o = .reg (.d n) := by
  cases o with
  | reg r =>
    cases r with
    | d n => exact ⟨n, rfl⟩
    | _ => cases h
  | _ => cases h

theorem exists_dataPair {o : Operand} (h : o.shape = .dataPair) : ∃ n, o = .reg (.e n) := by
  cases o with
  | reg r =>
    cases r with
    | e n => exact ⟨n, rfl⟩
    | _ => cases h
  | _ => cases h

theorem exists_whole {wide : Bool} {o : Operand} (h : o.shape = .whole wide) :
    ∃ n, o = .reg (.whole wide n) := by
  cases wide with
  | true => exact exists_dataPair h
  | false => exact exists_data h

end Operand

namespace Instruction

variable {β : Type} [Bus β] {isa : Isa} {m : Machine β} {i : Instruction} {sign : Sign}
  {subtract sat : Bool} {dst acc : Nat} {x y : Operand}

theorem yields_data (m : Machine β) (i : Instruction) (k t : Nat) :
    (Expr.reg (.d k)).Yields (m.start i) t (Operand.word m.core (.reg (.d k))) :=
  Operand.IsWord.yields (o := .reg (.d k)) (.inl rfl) m i t

theorem yields_dataPair (m : Machine β) (i : Instruction) (k t : Nat) :
    (Expr.reg (.e k)).Yields (m.start i) t (m.core.read (.e k)) := by
  refine .reg trivial rfl ?_
  rw [BitVec.setWidth_eq]
  rfl

/-! ## 64-bit results -/

theorem carries_product (hx : x.IsWord) (hy : y.IsWord) (sign : Sign) (n : Nat) :
    (Expr.mul .double (.extend sign .double x.expr) (.extend sign .double y.expr)).Carries
      (m.start i) n (x.number sign m.core * y.number sign m.core) := by
  rw [hx.number, hy.number]
  exact .mul (.extend sign (hx.yields m i n)) (.extend sign (hy.yields m i n))

theorem step_multiply_wide (hi : m.instruction? isa = some i)
    (ha : i.row.action = .multiply sign true sat)
    (hbinary : (Lift.Source.of i).binary = .ok (.e dst, x.expr, y.expr)) (hx : x.IsWord)
    (hy : y.IsWord) :
    let exact := x.number sign m.core * y.number sign m.core
    (m.step isa).2 = .done ∧ m.Delivers sign .double [exact] (.e dst)
      (sign.stored .double sat exact) (m.step isa).1 := by
  intro exact
  have hfits : sign.Fits .double exact := by
    simp only [exact, hx.number, hy.number]
    exact sign.fits_product _ _
  refine Machine.step_of_runs hi (plan_multiply ha hbinary) fun s _ => ?_
  refine .bind (.temp (carries_product hx hy sign s.temps) (by decide) fun m' e _ hpsw he => ?_)
  exact Lift.runs_setProduct he hfits (.double dst) hpsw

theorem step_multiplyAdd_wide (hi : m.instruction? isa = some i)
    (ha : i.row.action = .multiplyAdd subtract sign true sat)
    (hops : i.operands = [.reg (.e dst), .reg (.e acc), x, y]) (hx : x.IsWord) (hy : y.IsWord) :
    let exact := (if subtract then .sub else .add : Accumulate).sum
      (sign.number (m.core.read (.e acc))) (x.number sign m.core * y.number sign m.core)
    (m.step isa).2 = .done ∧ m.Delivers sign .double [exact] (.e dst)
      (sign.stored .double sat exact) (m.step isa).1 := by
  intro exact
  have hsource : (Lift.Source.of i).operands = [.reg (.e dst), .reg (.e acc), x, y] := by
    rw [operands_of_values ?_, hops]
    simp only [hops, List.forall_mem_cons]
    exact ⟨rfl, rfl, hx.takes, hy.takes, by simp⟩
  refine Machine.step_of_runs hi (plan_multiplyAdd ha hsource rfl hx hy) fun s _ => ?_
  refine .bind (.temp (carries_product hx hy sign s.temps) (by decide)
    fun m₁ p hgrows hpsw hp => ?_)
  have hacc := (yields_dataPair m i acc s.temps).mono hgrows (Nat.le_succ _)
  refine .bind (.temp hacc (by decide) fun m₂ a hgrows₂ hpsw₂ hkept => ?_)
  have hp₂ := hp.mono hgrows₂ (Nat.le_succ _)
  have hproduct : sign.Fits .double (x.number sign m.core * y.number sign m.core) := by
    rw [hx.number, hy.number]
    exact sign.fits_product _ _
  have hpsw' := hpsw₂.trans hpsw
  cases sign with
  | signed =>
    refine Lift.runs_setAccumulated ?_ (.of_yields .signed hkept) hp₂ (Sign.fits_number _ _)
      hproduct (.double dst) hpsw'
    cases subtract <;> decide
  | unsigned =>
    exact Lift.runs_setAccumulatedU (.of_yields .unsigned hkept) hp₂ (Sign.fits_number _ _)
      hproduct (.double dst) hpsw'

/-! ## Word-sized results -/

theorem step_multiply_word (hi : m.instruction? isa = some i)
    (ha : i.row.action = .multiply .signed false sat)
    (hbinary : (Lift.Source.of i).binary = .ok (.d dst, x.expr, y.expr)) (hx : x.IsWord)
    (hy : y.IsWord) :
    let exact := x.number .signed m.core * y.number .signed m.core
    (m.step isa).2 = .done ∧ m.Delivers .signed .word [exact] (.d dst)
      (Sign.signed.stored .word sat exact) (m.step isa).1 := by
  intro exact
  obtain ⟨hdone, hconcludes⟩ := step_multiply hi ha hbinary hx hy
  simp only [wideProduct_eq, ← hx.number, ← hy.number] at hconcludes
  refine ⟨hdone, hconcludes.delivers ?_⟩
  rw [hx.number, hy.number]
  exact Sign.signed.fits_product _ _

theorem step_multiplyAdd_word (hi : m.instruction? isa = some i)
    (ha : i.row.action = .multiplyAdd subtract .signed false sat)
    (hops : i.operands = [.reg (.d dst), .reg (.d acc), x, y]) (hx : x.IsWord) (hy : y.IsWord) :
    let exact := (if subtract then .sub else .add : Accumulate).sum
      (Operand.number .signed m.core (.reg (.d acc)))
      (x.number .signed m.core * y.number .signed m.core)
    (m.step isa).2 = .done ∧ m.Delivers .signed .word [exact] (.d dst)
      (Sign.signed.stored .word sat exact) (m.step isa).1 := by
  intro exact
  have hwords : ∀ o ∈ i.operands, o.IsWord := by
    simp only [hops, List.forall_mem_cons]
    exact ⟨.inl rfl, .inl rfl, hx, hy, by simp⟩
  obtain ⟨hdone, hconcludes⟩ := step_multiplyAdd hi ha hops hwords
  have hexact : exact = (if subtract then .sub else .add : Accumulate).sum
      (Operand.word m.core (.reg (.d acc))).toInt
      ((x.word m.core).toInt * (y.word m.core).toInt) := by
    simp only [exact, hx.number, hy.number]
    rfl
  rw [wideSum_signed, ← hexact] at hconcludes
  refine ⟨hdone, hconcludes.delivers ?_⟩
  have hproduct : |(x.word m.core).toInt * (y.word m.core).toInt| ≤ 2 ^ 62 :=
    abs_le.2 ⟨BitVec.le_toInt_mul_toInt, BitVec.toInt_mul_toInt_le⟩
  rw [hexact]
  exact fits_of_abs_lt ((Accumulate.abs_sum_le _ (abs_toInt_le _) hproduct).trans_lt (by decide))

/-! ## All forms -/

/-- Every operand of an instruction is read as its row says. -/
theorem resolved (hi : m.instruction? isa = some i) :
    ∃ g ∈ Opcode.table, i.row ∈ g.rows ∧ ∃ raw addr,
      List.Forall₂ (fun k o => k.resolve g.format (.extract g.format raw) addr = .ok o)
        i.row.operands i.operands := by
  obtain ⟨bytes, -, hd⟩ := Machine.instruction?_eq_some.1 hi
  obtain ⟨e, -, -, -, g, hg, hr, hos⟩ := of_decode hd
  exact ⟨g, hg, hr, e.raw, m.core.pc, forall₂_of_mapM hos⟩

theorem shapes_of_resolved {format : Format} {fields : Fields} {addr : Address}
    {ks : List OperandKind} {os : List Operand}
    (h : List.Forall₂ (fun k o => k.resolve format fields addr = .ok o) ks os) :
    os.map (·.shape) = ks.map (·.shape) := by
  induction h with
  | nil => rfl
  | cons hk _ ih => rw [List.map_cons, List.map_cons, ih, OperandKind.shape_of_resolve hk]

variable {wide : Bool}

theorem delivers_multiply (hi : m.instruction? isa = some i)
    (ha : i.row.action = .multiply sign wide sat) (hsign : sign = .unsigned → wide = true)
    (hbinary : (Lift.Source.of i).binary = .ok (.whole wide dst, x.expr, y.expr))
    (hx : x.IsWord) (hy : y.IsWord) :
    let d := Register.whole wide dst
    let exact := x.number sign m.core * y.number sign m.core
    (m.step isa).2 = .done ∧ m.Delivers sign d.width [exact] d (sign.stored d.width sat exact)
      (m.step isa).1 := by
  cases wide with
  | true => exact step_multiply_wide hi ha hbinary hx hy
  | false =>
    cases sign with
    | signed => exact step_multiply_word hi ha hbinary hx hy
    | unsigned => cases hsign rfl

theorem delivers_multiplyAdd (hi : m.instruction? isa = some i)
    (ha : i.row.action = .multiplyAdd subtract sign wide sat)
    (hsign : sign = .unsigned → wide = true)
    (hops : i.operands = [.reg (.whole wide dst), .reg (.whole wide acc), x, y]) (hx : x.IsWord)
    (hy : y.IsWord) :
    let d := Register.whole wide dst
    let exact := (if subtract then .sub else .add : Accumulate).sum
      (Operand.number sign m.core (.reg (.whole wide acc)))
      (x.number sign m.core * y.number sign m.core)
    (m.step isa).2 = .done ∧ m.Delivers sign d.width [exact] d (sign.stored d.width sat exact)
      (m.step isa).1 := by
  cases wide with
  | true => exact step_multiplyAdd_wide hi ha hops hx hy
  | false =>
    cases sign with
    | signed => exact step_multiplyAdd_word hi ha hops hx hy
    | unsigned => cases hsign rfl

/-- The operands of a product: two sources, and before them a destination if that is not the first
source too. -/
theorem operands_of_product {source : Shape} (hsource : source = .data ∨ source = .imm)
    (h : i.operands.map (·.shape) = [.whole wide, .data, source] ∨
      wide = false ∧ i.operands.map (·.shape) = [.data, source]) :
    ∃ dst x y, i.operands.head? = some (.reg (.whole wide dst)) ∧
      (i.operands = [.reg (.whole wide dst), x, y] ∨ i.operands = [x, y]) ∧ x.IsWord ∧ y.IsWord ∧
      (Lift.Source.of i).binary = .ok (.whole wide dst, x.expr, y.expr) := by
  rcases h with hthree | ⟨rfl, htwo⟩
  · simp only [List.map_eq_cons_iff, List.map_eq_nil_iff] at hthree
    obtain ⟨o, _, hops, ho, x, _, rfl, hx, y, _, rfl, rfl, rfl⟩ := hthree
    obtain ⟨dst, rfl⟩ := Operand.exists_whole ho
    have hxword : x.IsWord := .inl hx
    refine ⟨dst, x, y, by rw [hops]; rfl, .inl hops, hxword, hsource, binary_of_values hops ?_⟩
    simp only [hops, List.forall_mem_cons]
    refine ⟨?_, hxword.takes, Operand.IsWord.takes hsource, by simp⟩
    cases wide <;> rfl
  · simp only [List.map_eq_cons_iff, List.map_eq_nil_iff] at htwo
    obtain ⟨o, _, hops, ho, y, _, rfl, rfl, rfl⟩ := htwo
    obtain ⟨dst, rfl⟩ := Operand.exists_data ho
    refine ⟨dst, _, y, by rw [hops]; rfl, .inr hops, .inl rfl, hsource, binary_of_pair hops ?_⟩
    simp only [hops, List.forall_mem_cons]
    exact ⟨rfl, Operand.IsWord.takes hsource, by simp⟩

theorem operands_of_multiplyAdd {source : Shape} (hsource : source = .data ∨ source = .imm)
    (h : i.operands.map (·.shape) = [.whole wide, .whole wide, .data, source]) :
    ∃ dst acc x y, i.operands = [.reg (.whole wide dst), .reg (.whole wide acc), x, y] ∧
      x.IsWord ∧ y.IsWord := by
  simp only [List.map_eq_cons_iff, List.map_eq_nil_iff] at h
  obtain ⟨o, _, hops, ho, a, _, rfl, ha, x, _, rfl, hx, y, _, rfl, rfl, rfl⟩ := h
  obtain ⟨dst, rfl⟩ := Operand.exists_whole ho
  obtain ⟨acc, rfl⟩ := Operand.exists_whole ha
  exact ⟨dst, acc, x, y, hops, .inl hx, hsource⟩

end Instruction

/-- Multiply and multiply-accumulate match integer arithmetic. -/
theorem products_match_integers {β : Type} [Bus β] (isa : Isa) (m : Machine β) {i : Instruction}
    {f : ProductForm} (hi : m.instruction? isa = some i)
    (hname : (i.mnemonic, f) ∈ ProductForm.named)
    (hwide : f.sign = .unsigned → ∃ n, i.operands.head? = some (.reg (.e n))) :
    ∃ dst exact, i.operands.head? = some (.reg dst) ∧
      f.result? (i.operands.map (·.number f.sign m.core)) = some exact ∧ (m.step isa).2 = .done ∧
      m.Delivers f.sign dst.width [exact] dst (f.sign.stored dst.width f.saturates exact)
        (m.step isa).1 ∧
      (f.op = .none → dst.width = .double → (m.step isa).1.core.flag .v = false) := by
  obtain ⟨g, hg, hr, raw, addr, hos⟩ := Instruction.resolved hi
  obtain ⟨wide, -, source, hsource, hrow⟩ := Opcode.product_rows g hg i.row hr _ hname rfl
  rw [← Instruction.shapes_of_resolved hos] at hrow
  have hsource : source = .data ∨ source = .imm := by simpa using hsource
  have hsign {dst : Nat} (hhead : i.operands.head? = some (.reg (.whole wide dst))) :
      f.sign = .unsigned → wide = true := by
    intro hunsigned
    obtain ⟨n, hn⟩ := hwide hunsigned
    rw [hhead] at hn
    cases wide with
    | true => rfl
    | false => cases hn
  obtain ⟨sign, op, sat⟩ := f
  split at hrow
  · next hop =>
    obtain rfl : op = .none := hop
    obtain ⟨ha, hshapes⟩ := hrow
    obtain ⟨dst, x, y, hhead, hops, hx, hy, hbinary⟩ :=
      Instruction.operands_of_product hsource hshapes
    obtain ⟨hdone, hdelivers⟩ :=
      Instruction.delivers_multiply hi ha (hsign hhead) hbinary hx hy
    refine ⟨_, _, hhead, ?_, hdone, hdelivers, fun _ hdouble => ?_⟩
    · rcases hops with hops | hops <;> rw [hops] <;> rfl
    · have hv := hdelivers.reports.v
      rw [hdouble, hx.number, hy.number] at hv
      simpa [Sign.fits_product] using hv
  · next hop =>
    obtain ⟨ha, hshapes⟩ := hrow
    obtain ⟨dst, acc, x, y, hops, hx, hy⟩ := Instruction.operands_of_multiplyAdd hsource hshapes
    have hhead : i.operands.head? = some (.reg (.whole wide dst)) := by rw [hops]; rfl
    obtain ⟨hdone, hdelivers⟩ :=
      Instruction.delivers_multiplyAdd hi ha (hsign hhead) hops hx hy
    refine ⟨_, _, hhead, ?_, hdone, hdelivers, fun h => absurd h hop⟩
    rw [hops]
    cases op with
    | none => exact absurd rfl hop
    | add | sub => rfl

/-- `madds.u e2, e4, d0, d1` saturates at the largest 64-bit value. -/
theorem products_match_integers_madds :
    ((largestWords [0x03, 0x10, 0xE8, 0x24]).step .v16).2 = .done ∧
      ((largestWords [0x03, 0x10, 0xE8, 0x24]).step .v16).1.core.flag .v = true ∧
      ((largestWords [0x03, 0x10, 0xE8, 0x24]).step .v16).1.core.read (.e 2) = .allOnes 64 := by
  obtain ⟨i, hi, hname, hhead, hresult⟩ :
      ∃ i, (largestWords [0x03, 0x10, 0xE8, 0x24]).instruction? .v16 = some i ∧
        (i.mnemonic, ⟨.unsigned, .add, true⟩) ∈ ProductForm.named ∧
        i.operands.head? = some (.reg (.e 2)) ∧
        ProductForm.result? ⟨.unsigned, .add, true⟩ (i.operands.map
          (·.number .unsigned (largestWords [0x03, 0x10, 0xE8, 0x24]).core)) =
            some ((2 ^ 64 - 1) + (2 ^ 32 - 1) * (2 ^ 32 - 1)) :=
    ⟨_, rfl, by decide +kernel, by decide +kernel, by decide +kernel⟩
  obtain ⟨dst, exact, hdst, hexact, hdone, hdelivers, -⟩ := products_match_integers .v16
    (largestWords [0x03, 0x10, 0xE8, 0x24]) hi hname fun _ => ⟨2, hhead⟩
  obtain rfl := Option.some.inj (hresult.symm.trans hexact)
  obtain rfl : dst = .e 2 := by simpa [hhead, eq_comm] using hdst
  exact ⟨hdone, hdelivers.reports.v, hdelivers.result⟩

/-! ## Bounded products -/

/-- The bound stays below the low word, where it adds nothing. -/
theorem low_wideSum (subtract : Bool) (acc x y : Word) :
    (wideSum subtract .unsigned acc x y).setWidth 32 = BitVec.ofInt 32
      (if (x.toNat * y.toNat : Int) < 2 ^ 32 then
        (if subtract then .sub else .add : Accumulate).sum acc.toNat (x.toNat * y.toNat)
      else acc.toNat) := by
  have hbounded : boundedProduct .unsigned x y = BitVec.ofInt 64
      (if (x.toNat * y.toNat : Int) < 2 ^ 32 then x.toNat * y.toNat else 2 ^ 32) := by
    have hproduct := wideProduct_eq .unsigned x y
    simp only [boundedProduct, toNat_wideProduct]
    split_ifs with hlarge hsmall
    · zify at hlarge
      omega
    · rfl
    · exact hproduct
    · zify at hlarge
      omega
  have hsum : wideSum subtract .unsigned acc x y = BitVec.ofInt 64
      ((if subtract then .sub else .add : Accumulate).sum acc.toNat
        (if (x.toNat * y.toNat : Int) < 2 ^ 32 then x.toNat * y.toNat else 2 ^ 32)) := by
    rw [wideSum, hbounded, Sign.widen_eq_ofInt]
    cases subtract with
    | true => exact (ofInt_sub 64 _ _).symm
    | false => exact (BitVec.ofInt_add _ _).symm
  rw [hsum, setWidth_ofInt (by decide)]
  by_cases hsmall : (x.toNat * y.toNat : Int) < 2 ^ 32
  · rw [if_pos hsmall, if_pos hsmall]
  · rw [if_neg hsmall, if_neg hsmall]
    cases subtract with
    | true => exact (ofInt_sub 32 _ _).trans (BitVec.sub_zero _)
    | false => exact (BitVec.ofInt_add _ _).trans (BitVec.add_zero _)

/-- Saturating unsigned multiply-accumulate into a word has the advanced overflow of the exact
result if the product is a word; a larger product is bounded first, and the advanced overflow is
that of the accumulator alone. -/
theorem bounded_products_advance {β : Type} [Bus β] (isa : Isa) (m : Machine β) {i : Instruction}
    {op : Accumulate} {dst : Nat} (hi : m.instruction? isa = some i)
    (hname : (i.mnemonic, op) ∈ [("madds.u", Accumulate.add), ("msubs.u", .sub)])
    (hdst : i.operands.head? = some (.reg (.d dst))) :
    ∃ old acc x y, i.operands.map (·.number .unsigned m.core) = [old, acc, x, y] ∧
      (m.step isa).2 = .done ∧
      (m.step isa).1.core.flag .av =
        Width.word.advances (if x * y < 2 ^ 32 then op.sum acc (x * y) else acc) := by
  have hform : (i.mnemonic, ⟨.unsigned, op, true⟩) ∈ ProductForm.named ∧ op ≠ .none := by
    simp only [List.mem_cons, Prod.mk.injEq, List.not_mem_nil, or_false] at hname
    rcases hname with ⟨hmnemonic, rfl⟩ | ⟨hmnemonic, rfl⟩ <;> rw [hmnemonic] <;> decide
  obtain ⟨g, hg, hr, raw, addr, hos⟩ := Instruction.resolved hi
  obtain ⟨wide, -, source, hsource, hrow⟩ := Opcode.product_rows g hg i.row hr _ hform.1 rfl
  rw [← Instruction.shapes_of_resolved hos, if_neg hform.2] at hrow
  obtain ⟨ha, hshapes⟩ := hrow
  obtain ⟨d, acc, x, y, hops, hx, hy⟩ :=
    Instruction.operands_of_multiplyAdd (by simpa using hsource) hshapes
  rw [hops, List.head?_cons] at hdst
  obtain rfl : wide = false := by
    cases wide with
    | true => cases hdst
    | false => rfl
  have hwords : ∀ o ∈ i.operands, o.IsWord := by
    simp only [hops, List.forall_mem_cons]
    exact ⟨.inl rfl, .inl rfl, hx, hy, by simp⟩
  obtain ⟨hdone, hconcludes⟩ := Instruction.step_multiplyAdd hi ha hops hwords
  refine ⟨_, _, _, _, by rw [hops]; rfl, hdone, ?_⟩
  rw [hconcludes.reports.av, low_wideSum]
  simp only [hx.number, hy.number]
  cases op with
  | none => exact absurd rfl hform.2
  | add | sub => rfl

/-- One instruction to execute, where every data register holds the same word. -/
def sameWords (w : Word) (bytes : List Byte) : Machine Window where
  core := { d := .replicate 16 w }
  bus := { base := 0, size := 4, bytes := .putAll .empty 0 bytes }

/-- `msubs.u d3, d0, d1, d2` with a product that is a word. -/
theorem bounded_products_advance_msubs :
    ((sameWords 0x8000 [0x23, 0x21, 0x88, 0x30]).step .v16).2 = .done ∧
      ((sameWords 0x8000 [0x23, 0x21, 0x88, 0x30]).step .v16).1.core.flag .av = false := by
  obtain ⟨i, hi, hname, hdst, hnumbers⟩ :
      ∃ i, (sameWords 0x8000 [0x23, 0x21, 0x88, 0x30]).instruction? .v16 = some i ∧
        i.mnemonic = "msubs.u" ∧ i.operands.head? = some (.reg (.d 3)) ∧
        i.operands.map (·.number .unsigned (sameWords 0x8000 [0x23, 0x21, 0x88, 0x30]).core) =
          [0x8000, 0x8000, 0x8000, 0x8000] :=
    ⟨_, rfl, by decide +kernel, by decide +kernel, by decide +kernel⟩
  have hmem : (i.mnemonic, Accumulate.sub) ∈ [("madds.u", Accumulate.add), ("msubs.u", .sub)] := by
    simp [hname]
  obtain ⟨old, acc, x, y, hoperands, hdone, hav⟩ := bounded_products_advance .v16
    (sameWords 0x8000 [0x23, 0x21, 0x88, 0x30]) hi hmem hdst
  rw [hnumbers] at hoperands
  cases hoperands
  exact ⟨hdone, hav⟩

/-- `madds.u d3, d0, d1, d2` reports no advanced overflow, where the exact result has it. -/
theorem bounded_product_hides_advance :
    ∃ i, (sameWords 0x18000 [0x03, 0x21, 0x88, 0x30]).instruction? .v16 = some i ∧
      i.mnemonic = "madds.u" ∧
      i.operands.map (·.number .unsigned (sameWords 0x18000 [0x03, 0x21, 0x88, 0x30]).core) =
        [0x18000, 0x18000, 0x18000, 0x18000] ∧
      ((sameWords 0x18000 [0x03, 0x21, 0x88, 0x30]).step .v16).2 = .done ∧
      ((sameWords 0x18000 [0x03, 0x21, 0x88, 0x30]).step .v16).1.core.flag .av = false ∧
      Width.word.advances (0x18000 + 0x18000 * 0x18000) = true :=
  ⟨_, rfl, by decide +kernel, by decide +kernel, by decide +kernel, by decide +kernel, by decide⟩

end Tricore
