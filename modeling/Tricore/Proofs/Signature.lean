import Mathlib
import Tricore.Lift
import Tricore.Proofs.Dispatch

/-!
# Signatures

What the operands of an action have to be for its effects to be planned. A `Shape` is what is known
of an operand before its fields are read; a `Role` is what a plan does with an operand at a
position, and `Action.signature` lists the roles. Every row of the table fits the signature of its
action (`Opcode.signatures_fit`), so what a decoded instruction's plan is made from fits it too
(`Instruction.fits`), and operands that fit can be read (`Source.Fits.reg` and the lemmas after it).
-/

namespace Tricore

inductive Shape where
  | data
  | address
  | dataPair
  | addressPair
  /-- A register that is not for general purposes. -/
  | special
  | imm
  | high
  | target
  | place
  | csfr
  | selector
  deriving DecidableEq

def Register.shape : Register → Shape
  | .d _ => .data
  | .a _ => .address
  | .e _ => .dataPair
  | .p _ => .addressPair
  | _ => .special

/-- A data or address register, or a pair of them. -/
def Register.Ordinary (r : Register) : Prop := r.shape ≠ .special

def Operand.shape : Operand → Shape
  | reg r => r.shape
  | imm _ => .imm
  | high _ => .high
  | target _ => .target
  | place _ => .place
  | csfr _ => .csfr
  | selector _ => .selector

def OperandKind.shape : OperandKind → Shape
  | data _ => .data
  | address _ => .address
  | dataPair _ => .dataPair
  | addressPair _ => .addressPair
  | fixed r => r.shape
  | selector _ => .selector
  | signed _ | unsigned | index | position | position2 | width | bit => .imm
  | high => .high
  | csfr => .csfr
  | target _ => .target
  | absolute | based _ | basedLong | indirect | indirectPost _ | scaled _ | scaledA15 _
  | stackSlot => .place

/-- The register that an address is made from. -/
def Place.register? : Place → Option Register
  | absolute _ => none
  | based r _ | postIncrement r _ | preIncrement r _ | bitReverse r | circular r _ => some r

namespace OperandKind

variable {format : Format} {fields : Fields} {addr : Address} {k : OperandKind} {o : Operand}

theorem of_pair_eq_ok {n : Nat} {o o' : Operand} (h : pair n o = .ok o') : n % 2 = 0 ∧ o' = o := by
  unfold pair at h
  split at h
  · cases h
  · next hn => cases h; exact ⟨by omega, rfl⟩

theorem shape_of_resolve (h : k.resolve format fields addr = .ok o) : o.shape = k.shape := by
  cases k with
  | dataPair | addressPair => rw [(of_pair_eq_ok h).2]; rfl
  | based mode =>
    cases mode with
    | bitReverse | circular => rw [(of_pair_eq_ok h).2]; rfl
    | _ => cases h; rfl
  | _ => cases h; rfl

theorem ordinary_of_resolve {p : Place} (h : k.resolve format fields addr = .ok (.place p)) :
    ∀ r ∈ p.register?, r.Ordinary := by
  cases k with
  | dataPair | addressPair => exact nomatch (of_pair_eq_ok h).2
  | based mode =>
    cases mode with
    | bitReverse | circular => cases (of_pair_eq_ok h).2; rintro _ ⟨⟩ ⟨⟩
    | _ => cases h; rintro _ ⟨⟩ ⟨⟩
  | absolute => cases h; rintro _ ⟨⟩
  | _ => cases h <;> rintro _ ⟨⟩ ⟨⟩

end OperandKind

/-! ## Roles -/

/-- What a plan does with an operand. -/
inductive Role where
  /-- The register is written, read by name or jumped through. -/
  | register
  | value
  | immediate
  | place
  | target
  | csfr
  /-- Both registers of a pair are used on their own. -/
  | pair
  /-- A position or a width. -/
  | amount
  /-- A position and a width in one data pair. -/
  | field
  deriving DecidableEq

namespace Role

def takes : Role → Shape → Bool
  | register, .data | register, .address | register, .dataPair | register, .addressPair => true
  | value, .data | value, .address | value, .dataPair | value, .addressPair => true
  | value, .imm | value, .high => true
  | immediate, .imm => true
  | place, .place => true
  | target, .target => true
  | csfr, .csfr => true
  | pair, .dataPair | pair, .addressPair => true
  | amount, .imm | amount, .data => true
  | field, .dataPair => true
  | _, _ => false

variable {o : Operand}

theorem takes_register : register.takes o.shape = true ↔ ∃ r, o = .reg r ∧ r.Ordinary := by
  constructor
  · intro h
    cases o with
    | reg r => exact ⟨r, rfl, fun hr => by rw [Operand.shape, hr] at h; cases h⟩
    | _ => cases h
  · rintro ⟨r, rfl, hr⟩
    cases r with
    | d | a | e | p => rfl
    | _ => exact absurd rfl hr

theorem takes_immediate : immediate.takes o.shape = true ↔ ∃ v, o = .imm v := by
  constructor
  · intro h
    cases o with
    | imm v => exact ⟨v, rfl⟩
    | reg r => cases r <;> cases h
    | _ => cases h
  · rintro ⟨v, rfl⟩
    rfl

theorem takes_place : place.takes o.shape = true ↔ ∃ p, o = .place p := by
  constructor
  · intro h
    cases o with
    | place p => exact ⟨p, rfl⟩
    | reg r => cases r <;> cases h
    | _ => cases h
  · rintro ⟨p, rfl⟩
    rfl

theorem takes_target : target.takes o.shape = true ↔ ∃ t, o = .target t := by
  constructor
  · intro h
    cases o with
    | target t => exact ⟨t, rfl⟩
    | reg r => cases r <;> cases h
    | _ => cases h
  · rintro ⟨t, rfl⟩
    rfl

theorem takes_csfr : csfr.takes o.shape = true ↔ ∃ offset, o = .csfr offset := by
  constructor
  · intro h
    cases o with
    | csfr offset => exact ⟨offset, rfl⟩
    | reg r => cases r <;> cases h
    | _ => cases h
  · rintro ⟨offset, rfl⟩
    rfl

theorem takes_pair : pair.takes o.shape = true ↔
    ∃ r lo hi, o = .reg r ∧ r.halves? = some (lo, hi) ∧ lo.Ordinary ∧ hi.Ordinary := by
  constructor
  · intro h
    cases o with
    | reg r =>
      cases r with
      | e n => exact ⟨.e n, .d n, .d (n + 1), rfl, rfl, by rintro ⟨⟩, by rintro ⟨⟩⟩
      | p n => exact ⟨.p n, .a n, .a (n + 1), rfl, rfl, by rintro ⟨⟩, by rintro ⟨⟩⟩
      | _ => cases h
    | _ => cases h
  · rintro ⟨r, lo, hi, rfl, hr, -⟩
    cases r with
    | e | p => rfl
    | _ => cases hr

theorem takes_field : field.takes o.shape = true ↔ ∃ n, o = .reg (.e n) := by
  constructor
  · intro h
    cases o with
    | reg r =>
      cases r with
      | e n => exact ⟨n, rfl⟩
      | _ => cases h
    | _ => cases h
  · rintro ⟨n, rfl⟩
    rfl

/-- Destination and two sources; of two operands the first is both. -/
def binary (arity : Nat) : List Role :=
  if arity = 3 then [register, value, value] else [register, value]

/-- Destination and source; a single operand is both. -/
def unary (arity : Nat) : List Role := if arity = 2 then [register, value] else [register]

/-- Position and width. -/
def range (split : Bool) : List Role := if split then [amount, amount] else [field]

end Role

/-- The roles of an action's operands, selectors left out. -/
def Action.signature (arity : Nat) : Action → List Role
  | .add | .addSat _ | .addCarry | .addExtended | .sub | .subSat _ | .subCarry | .subExtended
  | .anyEqual _ | .logic _ | .shift _ | .multiply _ _ _ => Role.binary arity
  | .rsub | .rsubSat _ => if arity = 3 then [.register, .value, .value] else [.register]
  | .packed .abs _ | .packed .absSat _ => [.register, .value]
  | .packed _ _ => Role.binary arity
  | .saturate _ _ | .complement | .count _ _ => Role.unary arity
  | .compare _ | .compareInto _ _ => Role.binary arity
  | .condArith _ _ =>
    if arity = 4 then [.register, .value, .value, .value] else [.register, .value, .value]
  | .addScaled => [.register, .value, .value, .immediate]
  | .addBitIndex | .condMove _ | .movePair | .divide _ | .divideInit _ _ | .float _
  | .floatCompare => [.register, .value, .value]
  | .select _ | .multiplyAdd _ _ _ _ | .floatMultiplyAdd _ => [.register, .value, .value, .value]
  | .move => [.register, .value]
  | .halfMultiply _ .none _ _ _ | .fractionMultiply _ _ .none _ _ =>
    [.register, .value, .value, .immediate]
  | .halfMultiply _ _ _ _ _ | .fractionMultiply _ _ _ _ _ =>
    [.register, .value, .value, .value, .immediate]
  | .extract _ | .insertMask => [.register, .value] ++ Role.range (arity = 4)
  | .insert => [.register, .value, .value] ++ Role.range (arity = 5)
  | .extractDouble => [.register, .value, .value, .amount]
  | .bitLogic _ _ => [.register, .value, .immediate, .value, .immediate]
  | .insertBit _ => [.register, .value, .immediate, .value, .immediate]
  | .loadAddress | .load _ => [.register, .place]
  | .store _ => [.place, .value]
  | .storeBit => [.place, .immediate, .immediate]
  | .loadModifyStore | .compareSwap | .swapMasked => [.place, .pair]
  | .swap => [.place, .register]
  | .context _ | .cache _ => [.place]
  | .jump | .loopForever | .jumpLink | .call | .fastCall => [.target]
  | .jumpIndirect | .jumpLinkIndirect | .callIndirect | .fastCallIndirect => [.register]
  | .ret | .retException | .fastRet | .retMonitor | .nop | .trapOn _ => []
  | .branch _ => if arity = 3 then [.value, .value, .target] else [.value, .target]
  | .branchBit _ => [.value, .immediate, .target]
  | .branchStep _ => [.register, .value, .target]
  | .loop => [.register, .target]
  | .platform .disableInterruptsSaving => [.register]
  | .platform .restoreLowerContext => []
  | .platform _ => List.replicate arity .value
  | .readCsfr => [.register, .csfr]
  | .writeCsfr => [.csfr, .register]
  | .dataIntrinsic _ => .register :: List.replicate (arity - 1) .value
  | .floatConvert _ => if arity = 3 then [.register, .value, .value] else [.register, .value]
  | .updateFlags => [.value]

/-- The shapes of a row's operands, selectors left out. -/
def Row.shapes (r : Row) : List Shape := (r.operands.map (·.shape)).filter (· ≠ .selector)

/-- Do the shapes take the roles, one by one? -/
def Role.fit : List Role → List Shape → Bool
  | [], [] => true
  | role :: roles, shape :: shapes => role.takes shape && fit roles shapes
  | _, _ => false

theorem Opcode.signatures_fit : ∀ g ∈ table, ∀ r ∈ g.rows,
    Role.fit (r.action.signature r.shapes.length) r.shapes = true := by decide +kernel

/-! ## Readable operands -/

namespace Lift

variable {α β : Type}

/-- The reading succeeds, with a value that has the property. -/
def Reads (x : Read α) (Q : α → Prop) : Prop := ∃ a, x = .ok a ∧ Q a

namespace Reads

variable {Q : α → Prop} {R : β → Prop}

theorem ok {a : α} (h : Q a) : Reads (.ok a) Q := ⟨a, rfl, h⟩

theorem bind {x : Read α} {f : α → Read β} (hx : Reads x Q) (hf : ∀ a, Q a → Reads (f a) R) :
    Reads (x >>= f) R := by
  obtain ⟨a, rfl, ha⟩ := hx
  exact hf a ha

theorem mapM {x : α → Read β} {as : List α} (h : ∀ a ∈ as, Reads (x a) R) :
    Reads (as.mapM x) fun _ => True := by
  induction as with
  | nil => exact ok trivial
  | cons a as ih =>
    rw [List.mapM_cons]
    exact bind (h a (by simp)) fun _ _ =>
      bind (ih fun b hb => h b (by simp [hb])) fun _ _ => ok trivial

end Reads

/-- All operands are read, and an emission with the property follows. -/
def Plans (p : Plan) (Q : Emit Unit → Prop) : Prop := ∃ e, p = emitting e ∧ Q e

theorem Plans.emitting {Q : Emit Unit → Prop} {e : Emit Unit} (h : Q e) : Plans (emitting e) Q :=
  ⟨e, rfl, h⟩

/-- A plan emits one thing only. -/
theorem Plans.and {p : Plan} {Q R : Emit Unit → Prop} (hq : Plans p Q) (hr : Plans p R) :
    Plans p fun e => Q e ∧ R e := by
  obtain ⟨e, rfl, he⟩ := hq
  obtain ⟨e', hp, he'⟩ := hr
  have heq : e = e' := funext fun supply => Prod.ext rfl (congrArg (·.2) (congrFun hp supply))
  exact ⟨e, rfl, he, heq ▸ he'⟩

theorem Reads.plans {Q : α → Prop} {R : Emit Unit → Prop} {x : Read α} {f : α → Plan}
    (hx : Reads x Q) (hf : ∀ a, Q a → Plans (f a) R) : Plans (liftM x >>= f) R := by
  obtain ⟨a, rfl, ha⟩ := hx
  exact hf a ha

namespace Source

variable {s : Source} {roles : List Role}

def shapes (s : Source) : List Shape := s.operands.map (·.shape)

/-- The operands take the roles, one by one, and addresses are made from ordinary registers. -/
structure Fits (s : Source) (roles : List Role) : Prop where
  roles : Role.fit roles s.shapes = true
  places : ∀ p, .place p ∈ s.operands → ∀ r ∈ p.register?, r.Ordinary

theorem length_eq_of_fit {shapes : List Shape} (h : Role.fit roles shapes = true) :
    shapes.length = roles.length := by
  fun_induction Role.fit roles shapes <;> simp_all

theorem takes_of_fit {shapes : List Shape} {i : Nat} {role : Role}
    (h : Role.fit roles shapes = true) (hi : roles[i]? = some role) :
    ∃ shape, shapes[i]? = some shape ∧ role.takes shape = true := by
  fun_induction Role.fit roles shapes generalizing i with
  | case1 => simp at hi
  | case2 first roles shape shapes ih =>
    simp only [Bool.and_eq_true] at h
    cases i with
    | zero => exact ⟨shape, rfl, by simp_all⟩
    | succ i => exact ih h.2 (by simpa using hi)
  | case3 => cases h

namespace Fits

variable (h : s.Fits roles) (i : Nat)
include h

theorem arity : s.arity = roles.length := by
  rw [← length_eq_of_fit h.roles, shapes, List.length_map, Source.arity]

theorem operand {role : Role} (hi : roles[i]? = some role) :
    Reads (s.operand i) fun o => s.operands[i]? = some o ∧ role.takes o.shape = true := by
  obtain ⟨shape, hs, ht⟩ := takes_of_fit h.roles hi
  simp only [shapes, List.getElem?_map, Option.map_eq_some_iff] at hs
  obtain ⟨o, ho, rfl⟩ := hs
  exact ⟨o, by simp [Source.operand, ho], ho, ht⟩

theorem reg (hi : roles[i]? = some .register) :
    Reads (s.reg i) fun r => s.operands[i]? = some (.reg r) ∧ r.Ordinary := by
  refine (h.operand i hi).bind fun o ⟨ho, ht⟩ => ?_
  obtain ⟨r, rfl, hr⟩ := Role.takes_register.1 ht
  exact .ok ⟨ho, hr⟩

theorem value (hi : roles[i]? = some .value ∨ roles[i]? = some .register) :
    Reads (s.value i) fun _ => True := by
  rcases hi with hi | hi <;> refine (h.operand i hi).bind fun o ⟨ho, ht⟩ => ?_ <;>
    cases o <;> first | exact .ok trivial | cases ht

theorem imm (hi : roles[i]? = some .immediate) : Reads (s.imm i) fun _ => True := by
  refine (h.operand i hi).bind fun o ⟨_, ht⟩ => ?_
  obtain ⟨v, rfl⟩ := Role.takes_immediate.1 ht
  exact .ok trivial

theorem count (hi : roles[i]? = some .immediate) : Reads (s.count i) fun _ => True :=
  (h.imm i hi).bind fun _ _ => .ok trivial

theorem place (hi : roles[i]? = some .place) :
    Reads (s.place i) fun p => ∀ r ∈ p.register?, r.Ordinary := by
  refine (h.operand i hi).bind fun o ⟨ho, ht⟩ => ?_
  obtain ⟨p, rfl⟩ := Role.takes_place.1 ht
  exact .ok (h.places p (List.mem_of_getElem? ho))

theorem target (hi : roles[i]? = some .target) : Reads (s.target i) fun _ => True := by
  refine (h.operand i hi).bind fun o ⟨_, ht⟩ => ?_
  obtain ⟨t, rfl⟩ := Role.takes_target.1 ht
  exact .ok trivial

theorem csfr (hi : roles[i]? = some .csfr) :
    Reads (s.csfr i) fun offset => s.operands[i]? = some (.csfr offset) := by
  refine (h.operand i hi).bind fun o ⟨ho, ht⟩ => ?_
  obtain ⟨offset, rfl⟩ := Role.takes_csfr.1 ht
  exact .ok ho

theorem pair (hi : roles[i]? = some .pair) :
    Reads (s.pair i) fun halves => halves.1.Ordinary ∧ halves.2.Ordinary := by
  refine Reads.bind (Q := fun r => ∃ lo hi, r.halves? = some (lo, hi) ∧ lo.Ordinary ∧ hi.Ordinary)
    ((h.operand i hi).bind fun o ⟨_, ht⟩ => ?_) fun r ⟨lo, hi, hr, hlo, hhi⟩ => ?_
  · obtain ⟨r, lo, hi, rfl, hr⟩ := Role.takes_pair.1 ht
    exact .ok ⟨lo, hi, hr⟩
  · simp only [hr]
    exact .ok ⟨hlo, hhi⟩

theorem amount (hi : roles[i]? = some .amount) : Reads (s.amount i) fun _ => True := by
  refine (h.operand i hi).bind fun o ⟨_, ht⟩ => ?_
  cases o <;> first | exact .ok trivial | cases ht

/-- Position and width: one data pair, or two amounts. -/
theorem field (hi : roles[i]? = some .field ∨
      roles[i]? = some .amount ∧ roles[i + 1]? = some .amount) :
    Reads (s.field i) fun _ => True := by
  rcases hi with hi | ⟨hi, hn⟩
  · refine (h.operand i hi).bind fun o ⟨_, ht⟩ => ?_
    obtain ⟨n, rfl⟩ := Role.takes_field.1 ht
    exact .ok trivial
  · have two : Reads (do return (← s.amount i, ← s.amount (i + 1))) fun _ => True :=
      (h.amount i hi).bind fun _ _ => (h.amount (i + 1) hn).bind fun _ _ => .ok trivial
    refine (h.operand i hi).bind fun o ⟨_, ht⟩ => ?_
    cases o with
    | reg r => cases r <;> first | exact two | cases ht
    | _ => exact two

theorem bit (hi : roles[i]? = some .value) (hn : roles[i + 1]? = some .immediate) :
    Reads (s.bit i) fun _ => True :=
  (h.value i (.inl hi)).bind fun _ _ => (h.count (i + 1) hn).bind fun _ _ => .ok trivial

/-- All operands from `i` on are values. -/
theorem values (hi : ∀ j, i ≤ j → j < roles.length → roles[j]? = some .value) :
    Reads (s.values i) fun _ => True := by
  refine .mapM (R := fun _ => True) fun j hj => h.value j (.inl (hi j ?_ ?_)) <;>
    simp only [List.mem_range'_1, h.arity] at hj <;> omega

end Fits

theorem Fits.binary (h : s.Fits (Role.binary s.arity)) :
    Reads s.binary fun x => s.operands[0]? = some (.reg x.1) ∧ x.1.Ordinary := by
  unfold Role.binary at h
  unfold Source.binary
  split at h
  · next h3 =>
    simp only [h3]
    exact (h.reg 0 rfl).bind fun _ hr => (h.value 1 (.inl rfl)).bind fun _ _ =>
      (h.value 2 (.inl rfl)).bind fun _ _ => .ok hr
  · simp only [show s.arity = 2 from h.arity]
    exact (h.reg 0 rfl).bind fun _ hr => (h.value 0 (.inr rfl)).bind fun _ _ =>
      (h.value 1 (.inl rfl)).bind fun _ _ => .ok hr

theorem Fits.unary (h : s.Fits (Role.unary s.arity)) :
    Reads s.unary fun x => s.operands[0]? = some (.reg x.1) ∧ x.1.Ordinary := by
  unfold Role.unary at h
  unfold Source.unary
  split at h
  · next h2 =>
    simp only [h2]
    exact (h.reg 0 rfl).bind fun _ hr => (h.value 1 (.inl rfl)).bind fun _ _ => .ok hr
  · simp only [show s.arity = 1 from h.arity]
    exact (h.reg 0 rfl).bind fun _ hr => (h.value 0 (.inr rfl)).bind fun _ _ => .ok hr

end Source

end Lift

/-! ## Decoded instructions -/

namespace Instruction

variable {isa : Isa} {bytes : List Byte} {addr : Address} {i : Instruction}

/-- What a decoded instruction was read from. -/
theorem of_decode (h : decode isa bytes addr = .ok i) :
    ∃ e, encodingOf bytes = .ok e ∧ i.addr = addr ∧ i.length = e.length ∧
      ∃ g ∈ Opcode.table, i.row ∈ g.rows ∧
        i.row.operands.mapM (·.resolve g.format (.extract g.format e.raw) addr) =
          .ok i.operands := by
  unfold decode at h
  split at h
  · cases h
  next e he =>
  simp only [ofEncoding] at h
  split at h
  · cases h
  next g hg =>
  split at h
  · cases h
  next r hr =>
  split at h
  · split at h
    · cases h
    next os hos =>
    cases h
    exact ⟨e, he, rfl, rfl, g, (Opcode.group?_eq_some_iff.1 hg).1, List.mem_of_find?_eq_some hr,
      hos⟩
  · cases h

theorem shapes_of_mapM {format : Format} {fields : Fields} {ks : List OperandKind}
    {os : List Operand} (h : ks.mapM (·.resolve format fields addr) = .ok os) :
    os.map (·.shape) = ks.map (·.shape) ∧
      ∀ p, .place p ∈ os → ∀ r ∈ p.register?, r.Ordinary := by
  induction ks generalizing os with
  | nil => cases h; simp
  | cons k ks ih =>
    rw [List.mapM_cons] at h
    cases hk : k.resolve format fields addr with
    | error => simp [hk, bind, Except.bind] at h
    | ok o =>
      cases hks : ks.mapM (·.resolve format fields addr) with
      | error => simp [hk, hks, bind, Except.bind] at h
      | ok os' =>
        simp only [hk, hks, bind, Except.bind, pure, Except.pure, Except.ok.injEq] at h
        subst h
        obtain ⟨hs, hp⟩ := ih hks
        refine ⟨by simp [hs, OperandKind.shape_of_resolve hk], fun p hmem => ?_⟩
        rcases List.mem_cons.1 hmem with rfl | hmem
        · exact OperandKind.ordinary_of_resolve hk
        · exact hp p hmem

theorem shapes_of (i : Instruction) :
    (Lift.Source.of i).shapes = (i.operands.map (·.shape)).filter (· ≠ .selector) := by
  simp only [Lift.Source.shapes, Lift.Source.of, List.filter_map]
  congr 2
  funext o
  cases o with
  | reg r => cases r <;> rfl
  | _ => rfl

/-- Without selectors, effects are planned from all operands. -/
theorem operands_of_unselected {i : Instruction} (h : ∀ o ∈ i.operands, o.shape ≠ .selector) :
    (Lift.Source.of i).operands = i.operands := by
  refine List.filter_eq_self.2 fun o ho => ?_
  cases o with
  | selector => exact absurd rfl (h _ ho)
  | _ => rfl

/-- The operands of a decoded instruction fit what it does. -/
theorem fits (h : decode isa bytes addr = .ok i) :
    (Lift.Source.of i).Fits (i.row.action.signature (Lift.Source.of i).arity) ∧
      (Lift.Source.of i).shapes = i.row.shapes := by
  obtain ⟨e, -, -, -, g, hg, hr, hos⟩ := of_decode h
  obtain ⟨hs, hp⟩ := shapes_of_mapM hos
  have heq : (Lift.Source.of i).shapes = i.row.shapes := by rw [shapes_of, hs, Row.shapes]
  have hlen : (Lift.Source.of i).arity = i.row.shapes.length := by
    rw [← heq, Lift.Source.shapes, List.length_map, Lift.Source.arity]
  refine ⟨⟨?_, fun p hmem => hp p (List.mem_of_mem_filter hmem)⟩, heq⟩
  rw [hlen, heq]
  exact Opcode.signatures_fit g hg _ hr

end Instruction

end Tricore
