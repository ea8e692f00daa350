import Mathlib
import Tricore.Proofs.PackedProducts

/-!
# Rounding products

Products of half-words without an accumulator, rounded to half-words: two of them side by side, or
one in the upper half of its word (`RoundedForm`). The product of two least half-words is pinned to
the greatest word so as to stay in range, but what is added for rounding carries it out of range
again. There, and only there, a rounding product overflows, and the half-word it leaves is the least
one (`rounding_products_wrap`).
-/

namespace Tricore

/-! ## Numbers -/

theorem append_halfWords (x : Word) : halfWord true x ++ halfWord false x = x := by
  refine BitVec.eq_of_getLsbD_eq fun i hi => ?_
  rw [BitVec.getLsbD_append]
  split_ifs with h
  · simp [halfWord, h]
  · simp [halfWord, show i - 16 < 16 by omega, show 16 + (i - 16) = i by omega]

/-- The upper half of a word is the word divided by 2^16. -/
theorem halfNumber_true (x : Word) : halfNumber true x = x.toInt / 2 ^ 16 := by
  have hlo := (halfWord false x).isLt
  have happend : x.toInt = 2 ^ 16 * (halfWord true x).toInt + (halfWord false x).toNat := by
    conv_lhs => rw [← append_halfWords x]
    exact BitVec.toInt_append
  rw [halfNumber, happend]
  omega

theorem halfNumber_bounds (upper : Bool) (x : Word) :
    -2 ^ 15 ≤ halfNumber upper x ∧ halfNumber upper x < 2 ^ 15 :=
  ⟨BitVec.le_toInt _, BitVec.toInt_lt⟩

/-- The factors of a product that is pinned: two least half-words, shifted by one. -/
def Pins (n : Nat) (p : Int × Int) : Prop := n = 1 ∧ p.1 = -2 ^ 15 ∧ p.2 = -2 ^ 15

instance (n : Nat) (p : Int × Int) : Decidable (Pins n p) := inferInstanceAs (Decidable (_ ∧ _ ∧ _))

section Rounding

variable {x y : Int} {n : Nat} (hx : -2 ^ 15 ≤ x ∧ x < 2 ^ 15) (hy : -2 ^ 15 ≤ y ∧ y < 2 ^ 15)
  (hn : n ≤ 1)
include hx hy hn

/-- Away from the least factors, a product leaves room for rounding. -/
theorem abs_product_lt (h : ¬ Pins n (x, y)) : -2 ^ 31 ≤ x * y * 2 ^ n ∧
    x * y * 2 ^ n ≤ 2 ^ 31 - 2 ^ 16 := by
  have hproduct : |x * y| ≤ 2 ^ 15 * 2 ^ 15 :=
    abs_mul_le (abs_le.2 ⟨hx.1, hx.2.le⟩) (abs_le.2 ⟨hy.1, hy.2.le⟩)
  rw [abs_le] at hproduct
  obtain rfl | rfl : n = 0 ∨ n = 1 := by omega
  · constructor <;> omega
  · by_cases hleast : x = -2 ^ 15
    · have hy' : y ≠ -2 ^ 15 := fun hy' => h ⟨rfl, hleast, hy'⟩
      subst hleast
      constructor <;> omega
    · have hsmaller : |x * y| ≤ (2 ^ 15 - 1) * 2 ^ 15 :=
        abs_mul_le (abs_le.2 ⟨by omega, by omega⟩) (abs_le.2 ⟨hy.1, hy.2.le⟩)
      rw [abs_le] at hsmaller
      constructor <;> omega

theorem fits_rounded :
    Sign.signed.Fits .word (pinned 16 x y n + 0x8000) ↔ ¬ Pins n (x, y) := by
  by_cases h : Pins n (x, y)
  · have hvalue : pinned 16 x y n = 2 ^ 31 - 1 := if_pos h
    simp only [hvalue, h, not_true, iff_false]
    decide
  · have hvalue : pinned 16 x y n = x * y * 2 ^ n := if_neg h
    have hbounds := abs_product_lt hx hy hn h
    rw [hvalue, Sign.fits_signed]
    simp only [h, not_false_iff, iff_true, Width.bits, Width.bytes]
    constructor <;> omega

/-- The half-word that rounding leaves of a product. -/
theorem halfNumber_rounded :
    halfNumber true (Sign.signed.stored .word false (pinned 16 x y n + 0x8000)) =
      if Pins n (x, y) then -2 ^ 15 else min ((x * y * 2 ^ n + 0x8000) / 2 ^ 16) 0x7FFF := by
  have hfits := fits_rounded hx hy hn
  split_ifs with h
  · have hvalue : pinned 16 x y n = 2 ^ 31 - 1 := if_pos h
    rw [hvalue]
    decide
  · have hvalue : pinned 16 x y n = x * y * 2 ^ n := if_neg h
    rw [hvalue] at hfits ⊢
    obtain ⟨hlo, hhi⟩ := Sign.fits_signed.1 (hfits.2 h)
    have htoInt : (BitVec.ofInt 32 (x * y * 2 ^ n + 0x8000)).toInt = x * y * 2 ^ n + 0x8000 :=
      BitVec.toInt_ofInt_eq_self (by decide) hlo hhi
    refine (halfNumber_true _).trans ((congrArg (· / 2 ^ 16) htoInt).trans (min_eq_left ?_).symm)
    simp only [Width.bits, Width.bytes] at hhi
    omega

end Rounding

/-! ## Forms -/

/-- Which halves are multiplied: two pairs of them, or one of the same halves of both sources. -/
inductive RoundedForm where
  | packed (h : HalfPair)
  | single (upper : Bool)
  deriving DecidableEq

namespace RoundedForm

def all : List RoundedForm :=
  [.packed .ll, .packed .lu, .packed .ul, .packed .uu, .single false, .single true]

def mnemonic : RoundedForm → String
  | packed _ => "mulr.h"
  | single _ => "mulr.q"

def source (upper : Bool) : FractionSource := if upper then .uppers else .lowers

def action : RoundedForm → Action
  | packed h => .halfMultiply h .none .none .rounded false
  | single upper => .fractionMultiply (source upper) false .none true false

/-- The operands after the destination, as an encoding has them, -/
def kinds : RoundedForm → List OperandKind
  | packed h => [.da, .db, .halves h, .index]
  | single upper => OperandKind.fraction (source upper) ++ [.index]

/-- and as they are read. -/
def operands (f : RoundedForm) (a b n : Nat) : List Operand :=
  match f with
  | packed h => [.reg (.d a), .reg (.d b), .selector h.name, .imm n]
  | single upper => (source upper).operands a b ++ [.imm n]

/-- The factors of each product, those of the upper one first. -/
def factors (f : RoundedForm) (x y : Word) : List (Int × Int) :=
  match f with
  | packed h =>
    [(halfNumber true x, halfNumber h.upper y), (halfNumber false x, halfNumber h.lower y)]
  | single upper => [(halfNumber upper x, halfNumber upper y)]

/-- The word that is made of the half-words of the products. -/
def IsMadeOf (f : RoundedForm) (r : Word) (parts : List Int) : Prop :=
  match f with
  | packed _ => [halfNumber true r, halfNumber false r] = parts
  | single _ => [halfNumber true r] = parts ∧ halfWord false r = 0

end RoundedForm

theorem Opcode.rounded_rows : ∀ g ∈ table, ∀ r ∈ g.rows,
    r.mnemonic ∈ ["mulr.h", "mulr.q"] → g.format = .rr1 ∧
      ∃ f ∈ RoundedForm.all, r.mnemonic = f.mnemonic ∧ r.action = f.action ∧
        r.operands = .dc :: f.kinds := by
  decide +kernel

theorem RoundedForm.eq_operands_of_resolve {f : RoundedForm} {format : Format} {fields : Fields}
    {addr : Address} {os : List Operand}
    (h : List.Forall₂ (fun k o => k.resolve format fields addr = .ok o) (.dc :: f.kinds) os) :
    os = .reg (.d fields.c.toNat) ::
      f.operands fields.a.toNat fields.b.toNat fields.n.toNat := by
  cases f with
  | packed => obtain _ | ⟨⟨⟩, _ | ⟨⟨⟩, _ | ⟨⟨⟩, _ | ⟨⟨⟩, _ | ⟨⟨⟩, ⟨⟩⟩⟩⟩⟩⟩ := h; rfl
  | single upper =>
    obtain _ | ⟨⟨⟩, hrest⟩ := h
    rw [FractionSource.eq_operands_of_resolve hrest]
    rfl

/-! ## Steps -/

theorem halfWord_append (upper : Bool) (x y : BitVec 16) :
    halfWord upper (x ++ y) = if upper then x else y := by
  have happend (j : Nat) :
      (x ++ y).getLsbD j = if j < 16 then y.getLsbD j else x.getLsbD (j - 16) :=
    BitVec.getLsbD_append
  refine BitVec.eq_of_getLsbD_eq fun i hi => ?_
  cases upper with
  | true =>
    rw [halfWord, if_pos rfl, if_pos rfl, BitVec.getLsbD_setWidth, BitVec.getLsbD_ushiftRight]
    refine (congrArg (_ && ·) (happend _)).trans ?_
    simp [hi]
  | false =>
    rw [halfWord, if_neg Bool.false_ne_true, if_neg Bool.false_ne_true, BitVec.getLsbD_setWidth]
    refine (congrArg (_ && ·) (happend _)).trans ?_
    simp [hi]

theorem RoundedForm.term_source (upper : Bool) (x y : Word) (n : Nat) :
    (source upper).term false ((source upper).product x y n) =
      pinned 16 (halfNumber upper x) (halfNumber upper y) n := by
  cases upper <;> rfl

namespace Instruction

variable {β : Type} [Bus β] {isa : Isa} {m : Machine β} {i : Instruction} {h : HalfPair}
  {src : FractionSource} {dst a b n : Nat}

/-- What effects are planned from has no selectors. -/
theorem operands_of_rounded {f : RoundedForm} {d : Register}
    (hops : i.operands = .reg d :: f.operands a b n) :
    (Lift.Source.of i).operands = [.reg d, .reg (.d a), .reg (.d b), .imm n] := by
  rw [Lift.Source.of, hops]
  cases f with
  | packed => rfl
  | single upper => cases upper <;> rfl

theorem plan_roundedHalves {d : Register}
    (ha : i.row.action = .halfMultiply h .none .none .rounded false) (hn : n < 4)
    (hsource : (Lift.Source.of i).operands = [.reg d, .reg (.d a), .reg (.d b), .imm n]) :
    i.plan = Lift.emitting (do
      let a ← Lift.temp (.reg (.d a))
      let b ← Lift.temp (.reg (.d b))
      let p1 ← Lift.temp (Lift.halfProduct (Lift.half a true) (Lift.half b h.upper) n)
      let p0 ← Lift.temp (Lift.halfProduct (Lift.half a false) (Lift.half b h.lower) n)
      Lift.setSeparate d none .none .none .rounded false p1 p0) := by
  simp only [Instruction.plan, ha, Lift.plan, Lift.Plan.halfMultiply, if_true, Nat.reduceAdd,
    Lift.Source.reg_of 0 hsource rfl, Lift.Source.value_of 1 hsource rfl rfl,
    Lift.Source.value_of 2 hsource rfl rfl, Lift.Source.count_of_lt 3 hsource rfl hn]
  rfl

theorem plan_roundedFraction {d : Register}
    (ha : i.row.action = .fractionMultiply src false .none true false) (hn : n < 4)
    (hsource : (Lift.Source.of i).operands = [.reg d, .reg (.d a), .reg (.d b), .imm n]) :
    i.plan = Lift.emitting (do
      let a ← Lift.temp (.reg (.d a))
      let b ← Lift.temp (.reg (.d b))
      let product ← Lift.temp (Lift.fractionProduct src false a b n)
      let result ← Lift.temp (Lift.rounding true product)
      Lift.setFraction d true false result) := by
  simp only [Instruction.plan, ha, Lift.plan, Lift.Plan.fractionMultiply, if_true, Nat.reduceAdd,
    Lift.Source.reg_of 0 hsource rfl, Lift.Source.value_of 1 hsource rfl rfl,
    Lift.Source.value_of 2 hsource rfl rfl, Lift.Source.count_of_lt 3 hsource rfl hn]
  rfl

theorem step_roundedHalves (hi : m.instruction? isa = some i)
    (ha : i.row.action = .halfMultiply h .none .none .rounded false) (hn : n < 4)
    (hsource : (Lift.Source.of i).operands = [.reg (.d dst), .reg (.d a), .reg (.d b), .imm n]) :
    let products := halfProducts h (Operand.word m.core (.reg (.d a)))
      (Operand.word m.core (.reg (.d b))) n
    let z1 := products.1 + 0x8000
    let z0 := products.2 + 0x8000
    (m.step isa).2 = .done ∧ m.Delivers .signed .word [z1, z0] (.d dst)
      (halfWord true (Sign.signed.stored .word false z1) ++
        halfWord true (Sign.signed.stored .word false z0)) (m.step isa).1 := by
  intro products z1 z0
  have hproducts := abs_halfProducts_le h (Operand.word m.core (.reg (.d a)))
    (Operand.word m.core (.reg (.d b))) hn
  refine Machine.step_of_runs hi (plan_roundedHalves ha hn hsource) fun s _ => ?_
  refine runs_halfProducts (yields_data m i a _) (yields_data m i b _) hn
    fun m' s' p1 p0 _ _ hpsw hp1 hp0 => ?_
  have hzero : (Expr.const .double 0).Carries m' s'.temps 0 := .const (by decide)
  have hbounds : |(0 : Int)| ≤ 2 ^ 31 ∧ |(0 : Int)| ≤ 2 ^ 31 := by decide
  have hround : decide (ProductShape.rounded ≠ .pair) = true := rfl
  exact Lift.runs_setSeparate hround ⟨hzero, hzero⟩ hp1 hp0 hbounds hproducts
    Lift.yields_packed_halves rfl rfl (.word dst) hpsw

theorem step_roundedFraction (hi : m.instruction? isa = some i)
    (ha : i.row.action = .fractionMultiply src false .none true false) (hn : n ≤ 1)
    (hsource : (Lift.Source.of i).operands = [.reg (.d dst), .reg (.d a), .reg (.d b), .imm n]) :
    let z := src.term false (src.product (Operand.word m.core (.reg (.d a)))
      (Operand.word m.core (.reg (.d b))) n) + 0x8000
    (m.step isa).2 = .done ∧ m.Delivers .signed .word [z] (.d dst)
      (rounded true (Sign.signed.stored .word false z)) (m.step isa).1 := by
  intro z
  have hfits : Sign.signed.Fits .double z := fits_narrow_sum src .none true 0 _ _ hn
  refine Machine.step_of_runs hi (plan_roundedFraction ha (by omega) hsource) fun s _ => ?_
  refine runs_fractionProduct hn fun m₁ s₁ p _ _ hpsw hp => ?_
  refine .bind (.temp (Lift.carries_rounding hp true) (by decide)
    fun m₂ result _ hpsw₂ hresult => ?_)
  exact Lift.runs_setFraction hresult hfits (hpsw₂.trans hpsw)

end Instruction

/-- Rounding products of half-words overflow exactly if two least half-words are multiplied and
shifted by one, and leave the least half-word there. Every other half-word of the result is the
rounded product. -/
theorem rounding_products_wrap {β : Type} [Bus β] (isa : Isa) (m : Machine β) {i : Instruction}
    (hi : m.instruction? isa = some i) (hname : i.mnemonic ∈ ["mulr.h", "mulr.q"]) :
    ∃ (f : RoundedForm) (dst a b n : Nat), i.mnemonic = f.mnemonic ∧
      i.operands = .reg (.d dst) :: f.operands a b n ∧ n < 4 ∧
      (n ≤ 1 →
        let factors := f.factors (Operand.word m.core (.reg (.d a)))
          (Operand.word m.core (.reg (.d b)))
        (m.step isa).2 = .done ∧
        ((m.step isa).1.core.flag .v = true ↔ ∃ p ∈ factors, Pins n p) ∧
        f.IsMadeOf (Operand.word (m.step isa).1.core (.reg (.d dst)))
          (factors.map fun p => if Pins n p then -2 ^ 15
            else min ((p.1 * p.2 * 2 ^ n + 0x8000) / 2 ^ 16) 0x7FFF)) := by
  obtain ⟨g, hg, hr, raw, addr, hos⟩ := Instruction.resolved hi
  obtain ⟨hformat, f, -, hmnemonic, ha, hkinds⟩ := Opcode.rounded_rows g hg i.row hr hname
  rw [hkinds] at hos
  obtain ⟨dst, a, b, n, hops, hn4⟩ : ∃ dst a b n : Nat,
      i.operands = .reg (.d dst) :: f.operands a b n ∧ n < 4 :=
    ⟨_, _, _, _, RoundedForm.eq_operands_of_resolve hos, Fields.n_lt_four (.inl hformat) raw⟩
  refine ⟨f, dst, a, b, n, hmnemonic, hops, hn4, fun hn => ?_⟩
  intro factors
  have hsource := Instruction.operands_of_rounded hops
  have hfits (upper upper' : Bool) (x y : Word) :=
    fits_rounded (halfNumber_bounds upper x) (halfNumber_bounds upper' y) hn
  have hresult (upper upper' : Bool) (x y : Word) :=
    halfNumber_rounded (halfNumber_bounds upper x) (halfNumber_bounds upper' y) hn
  cases f with
  | packed h =>
    obtain ⟨hdone, hdelivers⟩ := Instruction.step_roundedHalves hi ha hn4 hsource
    refine ⟨hdone, ?_, ?_⟩
    · rw [hdelivers.reports.v]
      simp [factors, RoundedForm.factors, Instruction.halfProducts, hfits]
    · rw [Operand.word_of_read hdelivers.result]
      show [(halfWord true _).toInt, (halfWord false _).toInt] = _
      rw [halfWord_append, halfWord_append]
      exact congrArg₂ (fun u v => [u, v]) (hresult true h.upper _ _) (hresult false h.lower _ _)
  | single upper =>
    obtain ⟨hdone, hdelivers⟩ := Instruction.step_roundedFraction hi ha hn hsource
    rw [RoundedForm.term_source] at hdelivers
    refine ⟨hdone, ?_, ?_⟩
    · rw [hdelivers.reports.v]
      simp [factors, RoundedForm.factors, hfits]
    · rw [Operand.word_of_read (hdelivers.result.trans (congrArg _ (rounded_word _)))]
      show [(halfWord true _).toInt] = _ ∧ halfWord false _ = 0
      rw [halfWord_append, halfWord_append]
      exact ⟨congrArg (fun u => [u]) (hresult upper upper _ _), rfl⟩

/-- `mulr.h d3, d1, d2 ul, 1`: the upper product is that of two least half-words, the lower one is
rounded. -/
theorem rounding_products_wrap_packed :
    let m := sameWords 0x80004000 [0xB3, 0x21, 0x31, 0x30]
    (m.step .v16).2 = .done ∧ (m.step .v16).1.core.flag .v = true ∧
      halfNumber true (Operand.word (m.step .v16).1.core (.reg (.d 3))) = -2 ^ 15 ∧
      halfNumber false (Operand.word (m.step .v16).1.core (.reg (.d 3))) = 0x2000 := by
  intro m
  obtain ⟨i, hi, hname, hoperands⟩ :
      ∃ i, (sameWords 0x80004000 [0xB3, 0x21, 0x31, 0x30]).instruction? .v16 = some i ∧
        i.mnemonic = "mulr.h" ∧
        i.operands = [.reg (.d 3), .reg (.d 1), .reg (.d 2), .selector "ul", .imm 1] :=
    ⟨_, rfl, by decide +kernel, by decide +kernel⟩
  obtain ⟨f, dst, a, b, n, -, hops, -, h⟩ := rounding_products_wrap .v16 m hi (by simp [hname])
  obtain ⟨rfl, rfl, rfl, rfl, rfl⟩ : f = .packed .ul ∧ dst = 3 ∧ a = 1 ∧ b = 2 ∧ n = 1 := by
    rw [hoperands] at hops
    rcases f with (_ | _ | _ | _) | (_ | _) <;>
      simp [RoundedForm.operands, RoundedForm.source, FractionSource.operands, HalfPair.name]
        at hops
    simp only [true_and]
    omega
  have hfactors : RoundedForm.factors (.packed .ul) (Operand.word m.core (.reg (.d 1)))
      (Operand.word m.core (.reg (.d 2))) = [(-2 ^ 15, -2 ^ 15), (0x4000, 0x4000)] := by
    decide +kernel
  rw [hfactors] at h
  obtain ⟨hdone, hv, hparts⟩ := h le_rfl
  have hhalves : [halfNumber true (Operand.word (m.step .v16).1.core (.reg (.d 3))),
      halfNumber false (Operand.word (m.step .v16).1.core (.reg (.d 3)))] = [-2 ^ 15, 0x2000] :=
    hparts
  refine ⟨hdone, hv.2 ⟨_, .head _, by decide⟩, ?_⟩
  simpa using hhalves

/-- `mulr.h d3, d1, d2 ul, 1` with least half-words everywhere overflows, and minus one times minus
one is minus one. -/
theorem rounding_product_overflows :
    let m := sameWords 0x80008000 [0xB3, 0x21, 0x31, 0x30]
    ∃ i, m.instruction? .v16 = some i ∧ i.mnemonic = "mulr.h" ∧
      i.operands = [.reg (.d 3), .reg (.d 1), .reg (.d 2), .selector "ul", .imm 1] ∧
      (m.step .v16).2 = .done ∧ (m.step .v16).1.core.flag .v = true ∧
      (m.step .v16).1.core.read (.d 3) = 0x80008000 ∧
      min ((-2 ^ 15 * -2 ^ 15 * 2 ^ 1 + 0x8000) / 2 ^ 16) 0x7FFF = (0x7FFF : Int) :=
  ⟨_, rfl, by decide +kernel, by decide +kernel, by decide +kernel, by decide +kernel,
    by decide +kernel, by decide⟩

end Tricore
