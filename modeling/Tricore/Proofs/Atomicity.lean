import Mathlib
import Tricore.Lift

/-!
# Failed lifts

Statements are kept back until an instruction has been lifted as a whole, but labels are taken from
the host at once and cannot be given back. A lift that fails leaves its host as it was all the same
(`failed_lift_keeps_host`): no plan takes a label before it has read its last operand.

`Planning.Atomic` says this of a plan. Reading an operand takes nothing, and emitting cannot fail, so
a plan that reads first and emits last is atomic, whatever operands it finds.
-/

namespace Tricore

namespace Lift

namespace Planning

variable {α β : Type}

/-- A failure leaves the supply as it was. -/
def Atomic (p : Planning α) : Prop :=
  ∀ supply err, (p supply).1 = .error err → (p supply).2.2 = supply

theorem Atomic.emitting {e : Emit Unit} : Atomic (emitting e) := by
  intro supply err h
  simp only [Lift.emitting, reduceCtorEq] at h

/-- Reading an operand takes nothing from the supply. -/
theorem Atomic.read {x : Read α} {f : α → Planning β} (hf : ∀ a, Atomic (f a)) :
    Atomic (liftM x >>= f) := by
  cases x with
  | error e => intro supply err _; rfl
  | ok a => exact hf a

/-- A label that is taken too early is lost. -/
example : ¬ Atomic (do
    emitting (do let l ← newLabel; mark l)
    liftM (Source.bad ⟨"", 0, []⟩ Unit 0)) := by
  intro h
  have hlost := congrArg Supply.labels (h ⟨0, 0, fun _ => none⟩ _ rfl)
  exact absurd hlost (by decide)

end Planning

open Planning (Atomic)

variable {s : Source}

theorem atomic_packed (op : LaneOp) (l : Lane) : Atomic (Plan.packed op l s) := by
  cases op with
  | abs | absSat => exact .read fun _ => .read fun _ => .emitting
  | _ => exact .read fun _ => .emitting

theorem atomic_extract (sign : Sign) : Atomic (Plan.extract sign s) := by
  refine .read fun dst => .read fun src => .read ?_
  rintro ⟨pos, width⟩
  cases pos <;> cases width <;> exact .emitting

theorem atomic_platform (i : Intrinsic) : Atomic (Plan.platform i s) := by
  cases i with
  | restoreLowerContext => exact .emitting
  | _ => exact .read fun _ => .emitting

/-- No plan takes a label before it has read its operands. -/
theorem plan_atomic (a : Action) : Atomic (plan s a) := by
  cases a with
  | packed op l => exact atomic_packed op l
  | extract sign => exact atomic_extract sign
  | platform i => exact atomic_platform i
  | ret | retException | fastRet | retMonitor | nop | trapOn => exact .emitting
  | add | sub | addSat | subSat | addCarry | addExtended | subCarry | subExtended | rsub | rsubSat
  | anyEqual | logic | shift | multiply | compare | compareInto | condArith | saturate | complement
  | count | context | cache | jump | loopForever | jumpIndirect | jumpLink | jumpLinkIndirect | call
  | callIndirect | fastCall | fastCallIndirect | updateFlags =>
    exact .read fun _ => .emitting
  | move | loadAddress | load | store | loadModifyStore | swap | compareSwap | swapMasked | loop
  | readCsfr | writeCsfr | dataIntrinsic =>
    exact .read fun _ => .read fun _ => .emitting
  | addBitIndex | condMove | movePair | divide | divideInit | insertMask | bitLogic | storeBit
  | branch | branchBit | branchStep | float | floatCompare | floatConvert =>
    exact .read fun _ => .read fun _ => .read fun _ => .emitting
  | addScaled | select | multiplyAdd | insert | extractDouble | insertBit | floatMultiplyAdd =>
    exact .read fun _ => .read fun _ => .read fun _ => .read fun _ => .emitting
  | halfMultiply | fractionMultiply =>
    exact .read fun _ => .read fun _ => .read fun _ => .read fun _ => .read fun _ => .emitting

end Lift

/-- A lift that fails leaves its host as it was, whatever instruction and operands it was given. -/
theorem failed_lift_keeps_host (i : Instruction) (t : Trace) {err : Lift.OperandError}
    (h : (i.liftInto t).1 = .error err) : (i.liftInto t).2 = t := by
  have hatomic : Lift.Planning.Atomic i.plan := Lift.plan_atomic i.row.action
  unfold Instruction.liftInto at h ⊢
  split at h
  · cases h
  · next e stmts supply hp =>
    have hsupply := hatomic (.of t) e (congrArg Prod.fst hp)
    rw [hp] at hsupply
    obtain rfl : supply = .of t := hsupply
    rfl

/-- A trace that has given out two labels, the first of them for an address. -/
def Trace.labelled : Trace := { nextLabel := 2, bound := [(0x102, ⟨0⟩)] }

/-- `jz d15` without its target. -/
theorem failed_lift_keeps_host_jz : ∃ i : Instruction,
    Instruction.decode .v16 [0x6E, 0x04] 0x100 =
        .ok { i with operands := [.reg (.d 15), .target 0x108] } ∧
      i.operands = [.reg (.d 15)] ∧ (i.liftInto .labelled).1 = .error ⟨"jz", 0⟩ ∧
      (i.liftInto .labelled).2 = .labelled := by
  have hdecode : ∃ i, Instruction.decode .v16 [0x6E, 0x04] 0x100 = .ok i ∧
      i.operands = [.reg (.d 15), .target 0x108] ∧
      (({ i with operands := [.reg (.d 15)] } : Instruction).liftInto .labelled).1 =
        .error ⟨"jz", 0⟩ := ⟨_, rfl, by decide +kernel, rfl⟩
  obtain ⟨i, hi, ho, hfail⟩ := hdecode
  refine ⟨{ i with operands := [.reg (.d 15)] }, ?_, rfl, hfail, failed_lift_keeps_host _ _ hfail⟩
  rw [hi, ← ho]

end Tricore
