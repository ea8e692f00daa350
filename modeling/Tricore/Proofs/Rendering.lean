import Mathlib
import Tricore.Instruction.Text
import Tricore.Proofs.Widths
import Tricore.Text.Numeral

/-!
# Instructions and their text

Two instructions of one row at one address have the same line exactly if they have the same operands
(`text_faithful`). Each part of a line is told apart from what follows it: numerals and register
names have characters of their own (`Text.atomic`), and the text of an operand ends at the next
comma or selector (`Token.Stop`). `Operand.Alike` says what two operands of a kind have in common,
and `Opcode.operands_suit` that no row mixes kinds whose texts run into each other.
-/

namespace Tricore

/-! ## Numerals -/

namespace Text

variable {n limit : Nat}

theorem digitValue?_digitChar {d : Nat} (h : d < 16) : digitValue? 16 d.digitChar = some d := by
  have hall : ∀ d < 16, digitValue? 16 d.digitChar = some d := by decide
  exact hall d h

theorem readDigits_append (radix limit : Nat) (xs ys : List Char) (n : Nat) :
    readDigits radix limit (xs ++ ys) n =
      (readDigits radix limit xs n).bind (readDigits radix limit ys) := by
  induction xs generalizing n with
  | nil => rfl
  | cons c xs ih =>
    simp only [List.cons_append, readDigits]
    split
    · rfl
    · split
      · exact ih _
      · rfl

/-- Hexadecimal digits are read back. -/
theorem readDigits_toDigits (h : n < limit) :
    readDigits 16 limit (Nat.toDigits 16 n) 0 = .ok n := by
  induction n using Nat.strong_induction_on with
  | _ n ih =>
    rw [Nat.toDigits_eq_if (by decide)]
    split_ifs with hn
    · simp [readDigits, digitValue?_digitChar hn, h]
    · have hdigit : digitValue? 16 (n % 16).digitChar = some (n % 16) :=
        digitValue?_digitChar (Nat.mod_lt n (by decide))
      rw [readDigits_append, ih (n / 16) (by omega) (by omega)]
      simp only [Except.bind, readDigits, hdigit, Nat.div_add_mod' n 16, if_pos h]

theorem readDigits_replicate (k : Nat) (cs : List Char) (h : 0 < limit) :
    readDigits 16 limit (List.replicate k '0' ++ cs) 0 = readDigits 16 limit cs 0 := by
  have hzero : digitValue? 16 '0' = some 0 := by decide
  induction k with
  | zero => rfl
  | succ k ih => simpa [List.replicate_succ, readDigits, hzero, h] using ih

theorem toDigits_injective {m : Nat} (h : Nat.toDigits 16 m = Nat.toDigits 16 n) : m = n := by
  have hm : readDigits 16 (m + n + 1) (Nat.toDigits 16 m) 0 = .ok m :=
    readDigits_toDigits (by omega)
  rw [h, readDigits_toDigits (by omega)] at hm
  exact (Except.ok.inj hm).symm

theorem hexPadded_injective {width m : Nat} (h : hexPadded width m = hexPadded width n) :
    m = n := by
  have hread : ∀ k < m + n + 1, readDigits 16 (m + n + 1) (hexPadded width k).toList 0 = .ok k := by
    intro k hk
    rw [hexPadded, zeroFill, String.toList_append, String.toList_ofList,
      readDigits_replicate _ _ (by omega), hexDigits, String.toList_ofList,
      readDigits_toDigits hk]
  have hm := hread m (by omega)
  rw [h, hread n (by omega)] at hm
  exact (Except.ok.inj hm).symm

theorem hexAddress_injective {a a' : Address} (h : hexAddress a = hexAddress a') : a = a' := by
  have hlist := congrArg String.toList h
  rw [hexAddress, hexAddress, String.toList_append, String.toList_append] at hlist
  exact BitVec.eq_of_toNat_eq
    (hexPadded_injective (String.toList_inj.1 (List.append_cancel_left hlist)))

/-- The digits of a number are those below the base. -/
theorem exists_digit {b : Nat} (hb : 1 < b) {c : Char} (h : c ∈ Nat.toDigits b n) :
    ∃ d < b, c = d.digitChar := by
  induction n using Nat.strong_induction_on with
  | _ n ih =>
    rw [Nat.toDigits_eq_if hb] at h
    split_ifs at h with hn
    · exact ⟨n, hn, List.mem_singleton.1 h⟩
    · rcases List.mem_append.1 h with h | h
      · exact ih (n / b) (Nat.div_lt_self (by omega) hb) h
      · exact ⟨n % b, Nat.mod_lt n (by omega), List.mem_singleton.1 h⟩

/-! ## Characters -/

/-- The characters of numerals and of register names. -/
def atomic : List Char :=
  ['0', '1', '2', '3', '4', '5', '6', '7', '8', '9', 'a', 'b', 'c', 'd', 'e', 'f', 'p', 'x', '-']

/-- A text of these characters alone. -/
def IsAtom (cs : List Char) : Prop := ∀ c ∈ cs, c ∈ atomic

theorem isAtom_cons {c : Char} {cs : List Char} : IsAtom (c :: cs) ↔ c ∈ atomic ∧ IsAtom cs :=
  List.forall_mem_cons

theorem isAtom_append {cs ds : List Char} : IsAtom (cs ++ ds) ↔ IsAtom cs ∧ IsAtom ds :=
  List.forall_mem_append

theorem isAtom_toDigits {b : Nat} (hb : 1 < b) (hb' : b ≤ 16) (n : Nat) :
    IsAtom (Nat.toDigits b n) := by
  have hall : ∀ d < 16, d.digitChar ∈ atomic := by decide
  intro c hc
  obtain ⟨d, hd, rfl⟩ := exists_digit hb hc
  exact hall d (by omega)

/-- Two texts that end at the first character of another sort are told apart from what follows. -/
theorem append_inj_of_stop {p : Char → Prop} {s t rest rest' : List Char} (hs : ∀ c ∈ s, p c)
    (ht : ∀ c ∈ t, p c) (hrest : ∀ c ∈ rest.head?, ¬ p c) (hrest' : ∀ c ∈ rest'.head?, ¬ p c)
    (h : s ++ rest = t ++ rest') : s = t ∧ rest = rest' := by
  induction s generalizing t with
  | nil =>
    cases t with
    | nil => exact ⟨rfl, h⟩
    | cons c t =>
      rw [List.nil_append] at h
      exact absurd (ht c (by simp)) (hrest c (by simp [h]))
  | cons c s ih =>
    cases t with
    | nil =>
      rw [List.nil_append] at h
      exact absurd (hs c (by simp)) (hrest' c (by simp [← h]))
    | cons d t =>
      obtain ⟨rfl, htail⟩ := List.cons.inj h
      obtain ⟨rfl, hr⟩ := ih (List.forall_mem_cons.1 hs).2 (List.forall_mem_cons.1 ht).2 htail
      exact ⟨rfl, hr⟩

end Text

open Text

/-! ## Registers, integers and addresses -/

namespace Register

variable {r r' : Register}

theorem isAtom_name (h : r.Ordinary) : IsAtom r.name.toList := by
  have hname : ∃ letter ∈ atomic, ∃ n, r.name.toList = letter :: Nat.toDigits 10 n := by
    cases r with
    | d n | a n | e n | p n =>
      refine ⟨_, ?_, n, by simp [name]; rfl⟩
      decide
    | _ => exact absurd rfl h
  obtain ⟨letter, hl, n, hname⟩ := hname
  rw [hname]
  exact isAtom_cons.2 ⟨hl, isAtom_toDigits (by decide) (by decide) n⟩

theorem name_injective (h : r.Ordinary) (hshape : r.shape = r'.shape)
    (hname : r.name.toList = r'.name.toList) : r = r' := by
  have hdigits : ∀ {m n : Nat}, Nat.toDigits 10 m = Nat.toDigits 10 n → m = n := by
    intro m n h
    exact Nat.repr_inj.1 (congrArg String.ofList h)
  cases r with
  | d n | a n | e n | p n =>
    cases r' with
    | d m | a m | e m | p m =>
      first
        | (cases hshape; done)
        | exact congrArg _ (hdigits (by simpa [name] using hname))
    | _ => cases hshape
  | _ => exact absurd rfl h

end Register

namespace Token

theorem toList_toString (v : Int) : (toString v).toList =
    if 0 ≤ v then Nat.toDigits 10 v.toNat else '-' :: Nat.toDigits 10 (-v).toNat := by
  rw [Int.toString_eq_repr, Int.repr_eq_if]
  split_ifs <;> simp [Nat.repr_eq_ofList_toDigits]

theorem toList_int (v : Int) : (int v).print.toList =
    if -9 ≤ v ∧ v ≤ 9 then (toString v).toList
    else (if v < 0 then ['-'] else []) ++ '0' :: 'x' :: Nat.toDigits 16 v.natAbs := by
  unfold int
  split_ifs <;> simp_all [print, Text.hex, Text.hexDigits]

theorem x_notMem_toString (v : Int) : 'x' ∉ (toString v).toList := by
  have hdigits : ∀ n, 'x' ∉ Nat.toDigits 10 n := by
    intro n h
    have hall : ∀ d < 10, 'x' ≠ d.digitChar := by decide
    obtain ⟨d, hd, hx⟩ := exists_digit (by decide) h
    exact hall d hd hx
  rw [toList_toString]
  split_ifs
  · exact hdigits _
  · simpa using hdigits _

theorem isAtom_int (v : Int) : IsAtom (int v).print.toList := by
  have hsigns : '-' ∈ atomic ∧ '0' ∈ atomic ∧ 'x' ∈ atomic := by decide
  have hten : ∀ n, IsAtom (Nat.toDigits 10 n) := isAtom_toDigits (by decide) (by decide)
  have hsixteen : ∀ n, IsAtom (Nat.toDigits 16 n) := isAtom_toDigits (by decide) (by decide)
  rw [toList_int, toList_toString]
  split_ifs <;> simp [isAtom_cons, hsigns, hten, hsixteen]

theorem isAtom_address (a : Address) : IsAtom (address a).print.toList := by
  have hsigns : '0' ∈ atomic ∧ 'x' ∈ atomic := by decide
  have hfill : ∀ k, IsAtom (List.replicate k '0') :=
    fun k c hc => List.eq_of_mem_replicate hc ▸ hsigns.1
  have hdigits : IsAtom (Nat.toDigits 16 a.toNat) := isAtom_toDigits (by decide) (by decide) _
  simp [print, Text.hexAddress, Text.hexPadded, Text.zeroFill, Text.hexDigits, isAtom_cons,
    isAtom_append, hsigns, hfill, hdigits]

theorem int_ne_nil (v : Int) : (int v).print.toList ≠ [] := by
  rw [toList_int, toList_toString]
  split_ifs <;> simp [Nat.toDigits_ne_nil]

theorem int_injective {v w : Int} (h : (int v).print.toList = (int w).print.toList) : v = w := by
  -- Only hexadecimal numerals have an `x`.
  have hx : ∀ u : Int, 'x' ∈ (int u).print.toList ↔ ¬ (-9 ≤ u ∧ u ≤ 9) := by
    intro u
    rw [toList_int]
    split_ifs with hu
    · exact iff_of_false (x_notMem_toString u) (not_not.2 hu)
    · simp [hu]
    · simp [hu]
  have hsame : (-9 ≤ v ∧ v ≤ 9) ↔ (-9 ≤ w ∧ w ≤ 9) := by
    rw [← not_iff_not, ← hx v, ← hx w, h]
  rw [toList_int, toList_int] at h
  by_cases hv : -9 ≤ v ∧ v ≤ 9
  · rw [if_pos hv, if_pos (hsame.1 hv)] at h
    exact Int.repr_inj.1 (String.toList_inj.1 h)
  · rw [if_neg hv, if_neg (mt hsame.2 hv)] at h
    have habs : (v < 0 ↔ w < 0) ∧ Nat.toDigits 16 v.natAbs = Nat.toDigits 16 w.natAbs := by
      split_ifs at h with hneg hneg' hneg'
      · exact ⟨iff_of_true hneg hneg', by simpa using h⟩
      · simp at h
      · simp at h
      · exact ⟨iff_of_false hneg hneg', by simpa using h⟩
    have := toDigits_injective habs.2
    omega

/-! ## Special function registers -/

/-- Names as they are printed differ from each other, and none looks like the next operand or an
immediate. -/
def legibleNames (names : List (List Char)) : Bool :=
  decide (names.map (·.map Char.toLower)).Nodup &&
    names.all (·.all fun c => c.toLower != ',' && c.toLower != '#')

theorem legibleNames_table : legibleNames (Csfr.table.map (·.2.toList)) = true := by
  simp only [Csfr.table, Csfr.memoryManagement, Csfr.protection, Csfr.floatingPoint,
    Csfr.dataRanges, Csfr.codeRanges, Csfr.counters, Csfr.debugging, Csfr.coreState,
    Csfr.generalPurpose, List.cons_append, List.nil_append, List.map_cons, List.map_nil,
    String.reduceToList]
  decide +kernel

/-- A named offset has an entry in the table. -/
theorem exists_csfr {offset : BitVec 16} {name : String} (h : Csfr.name? offset = some name) :
    (offset, name) ∈ Csfr.table := by
  obtain ⟨⟨o, n⟩, hfind, rfl⟩ := Option.map_eq_some_iff.1 h
  have ho := List.find?_some hfind
  rw [beq_iff_eq] at ho
  exact ho ▸ List.mem_of_find?_eq_some hfind

theorem csfrName_legible {offset : BitVec 16} {name : String} (h : Csfr.name? offset = some name) :
    ∀ c ∈ name.toLower.toList, c ≠ ',' ∧ c ≠ '#' := by
  have hall := (Bool.and_eq_true_iff.1 legibleNames_table).2
  intro c hc
  rw [String.toLower, String.toList_map] at hc
  obtain ⟨d, hd, rfl⟩ := List.mem_map.1 hc
  have hname := List.all_eq_true.1 hall _ (List.mem_map_of_mem (exists_csfr h))
  simpa using List.all_eq_true.1 hname d hd

theorem csfrName_injective {offset offset' : BitVec 16} {name name' : String}
    (h : Csfr.name? offset = some name) (h' : Csfr.name? offset' = some name')
    (heq : name.toLower = name'.toLower) : offset = offset' := by
  have hnodup := of_decide_eq_true (Bool.and_eq_true_iff.1 legibleNames_table).1
  rw [List.map_map] at hnodup
  have hlist : name.toList.map Char.toLower = name'.toList.map Char.toLower := by
    simpa [String.toLower] using congrArg String.toList heq
  exact (Prod.ext_iff.1 (List.inj_on_of_nodup_map hnodup (exists_csfr h) (exists_csfr h') hlist)).1

/-! ## Operands -/

/-- Tokens as characters. -/
def chars (ts : List Token) : List Char := (render ts).toList

theorem chars_nil : chars [] = [] := by simp [chars, render]

theorem chars_cons (t : Token) (ts : List Token) :
    chars (t :: ts) = t.print.toList ++ chars ts := by
  simp [chars, render]

theorem chars_append (ts us : List Token) : chars (ts ++ us) = chars ts ++ chars us := by
  simp [chars, render]

variable {ts ts' : List Token}

theorem chars_tail {t : Token} (h : chars (t :: ts) = chars (t :: ts')) : chars ts = chars ts' := by
  rw [chars_cons, chars_cons] at h
  exact List.append_cancel_left h

theorem chars_register {r r' : Register} (hr : r.Ordinary) (hshape : r.shape = r'.shape)
    {t : Token} (h : chars (ofRegister r :: t :: ts) = chars (ofRegister r' :: t :: ts'))
    {c : Char} (ht : t.print.toList.head? = some c) (hc : c ∉ atomic) :
    r = r' ∧ chars ts = chars ts' := by
  have hr' : r'.Ordinary := fun hs => hr (hshape.trans hs)
  have hstop : ∀ us, ∀ d ∈ (chars (t :: us)).head?, d ∉ atomic := by
    intro us d hd
    rw [chars_cons, List.head?_append_of_ne_nil _ (by rintro hnil; simp [hnil] at ht), ht] at hd
    exact Option.mem_some.1 hd ▸ hc
  rw [chars_cons (ofRegister r), chars_cons (ofRegister r')] at h
  obtain ⟨hname, hrest⟩ := append_inj_of_stop (Register.isAtom_name hr) (Register.isAtom_name hr')
    (hstop ts) (hstop ts') h
  exact ⟨Register.name_injective hr hshape hname, chars_tail hrest⟩

theorem chars_int {v w : Int} (h : chars [int v] = chars [int w]) : v = w := by
  rw [chars_cons, chars_cons, chars_nil, List.append_nil, List.append_nil] at h
  exact int_injective h

theorem chars_address {a a' : Address} (h : chars [.address a] = chars [.address a']) : a = a' := by
  rw [chars_cons, chars_cons, chars_nil, List.append_nil, List.append_nil] at h
  exact hexAddress_injective (String.toList_inj.1 h)

theorem chars_offset {short : Bool} {o o' : Word}
    (h : chars (if o ≠ 0 ∨ short = false then [int o.toInt] else []) =
      chars (if o' ≠ 0 ∨ short = false then [int o'.toInt] else [])) : o = o' := by
  have hne : ∀ v, chars [int v] ≠ chars [] := by
    intro v hv
    rw [chars_cons, chars_nil, List.append_nil] at hv
    exact int_ne_nil v hv
  split_ifs at h with ho ho' ho'
  · exact BitVec.toInt_inj.1 (chars_int h)
  · exact absurd h (hne _)
  · exact absurd h.symm (hne _)
  · rw [not_or, not_not] at ho ho'
    rw [ho.1, ho'.1]

end Token

/-- Two addresses of one form, in encodings of one length. Short encodings imply the step of a
post-increment. -/
inductive Place.Alike (short : Bool) : Place → Place → Prop
  | absolute (a a' : Address) : Alike short (.absolute a) (.absolute a')
  | based (n n' : Nat) (o o' : Word) : Alike short (.based (.a n) o) (.based (.a n') o')
  | postIncrement (n n' : Nat) (o o' : Word) (implied : short = true → o = o') :
    Alike short (.postIncrement (.a n) o) (.postIncrement (.a n') o')
  | preIncrement (n n' : Nat) (o o' : Word) :
    Alike short (.preIncrement (.a n) o) (.preIncrement (.a n') o')
  | bitReverse (n n' : Nat) : Alike short (.bitReverse (.p n)) (.bitReverse (.p n'))
  | circular (n n' : Nat) (o o' : Word) :
    Alike short (.circular (.p n) o) (.circular (.p n') o')

def OperandKind.selectors : List String := ["ll", "lu", "ul", "uu", "l", "u"]

/-- Two operands of one kind, the first in an encoding that is short or not, the second likewise.
`named` tells whether their row has a special function register, and so no selectors. -/
inductive Operand.Alike (named short short' : Bool) : Operand → Operand → Prop
  | reg (r r' : Register) (ordinary : r.Ordinary) (shape : r.shape = r'.shape) :
    Alike named short short' (.reg r) (.reg r')
  | imm (v v' : Int) : Alike named short short' (.imm v) (.imm v')
  | high (half half' : BitVec 16) : Alike named short short' (.high half) (.high half')
  | target (a a' : Address) : Alike named short short' (.target a) (.target a')
  | place (p p' : Place) (length : short = short') (alike : p.Alike short p') :
    Alike named short short' (.place p) (.place p')
  | csfr (offset offset' : BitVec 16) (isNamed : named = true) :
    Alike named short short' (.csfr offset) (.csfr offset')
  | selector (s : String) (mem : s ∈ OperandKind.selectors) (unnamed : named = false) :
    Alike named short short' (.selector s) (.selector s)

open Token

theorem Place.Alike.eq_of_chars {short : Bool} {p p' : Place} (h : p.Alike short p')
    (heq : chars (ofPlace short p) = chars (ofPlace short p')) : p = p' := by
  have hends : ']' ∉ atomic ∧ '+' ∉ atomic := by decide
  have ha : ∀ n n', (Register.a n).Ordinary ∧ (Register.a n).shape = (Register.a n').shape :=
    fun _ _ => ⟨by rintro ⟨⟩, rfl⟩
  have hp : ∀ n n', (Register.p n).Ordinary ∧ (Register.p n).shape = (Register.p n').shape :=
    fun _ _ => ⟨by rintro ⟨⟩, rfl⟩
  cases h with
  | absolute => rw [chars_address heq]
  | based n n' o o' =>
    obtain ⟨hr, hrest⟩ := chars_register (ha n n').1 (ha n n').2 (chars_tail heq)
      (by simp [print]) hends.1
    rw [hr, chars_offset hrest]
  | postIncrement n n' o o' implied =>
    obtain ⟨hr, hrest⟩ := chars_register (ha n n').1 (ha n n').2 (chars_tail heq)
      (by simp [print]) hends.2
    cases short with
    | true => rw [hr, implied rfl]
    | false => rw [hr, BitVec.toInt_inj.1 (chars_int (chars_tail hrest))]
  | preIncrement n n' o o' =>
    obtain ⟨hr, hrest⟩ := chars_register (ha n n').1 (ha n n').2 (chars_tail (chars_tail heq))
      (by simp [print]) hends.1
    rw [hr, BitVec.toInt_inj.1 (chars_int hrest)]
  | bitReverse n n' =>
    rw [(chars_register (hp n n').1 (hp n n').2 (chars_tail heq) (by simp [print]) hends.2).1]
  | circular n n' o o' =>
    obtain ⟨hr, hrest⟩ := chars_register (hp n n').1 (hp n n').2 (chars_tail heq)
      (by simp [print]) hends.2
    rw [hr, BitVec.toInt_inj.1 (chars_int (chars_tail hrest))]

theorem Token.ofOperand_csfr_some {short : Bool} {offset : BitVec 16} {name : String}
    (h : Csfr.name? offset = some name) :
    ofOperand short (.csfr offset) = [.register name.toLower] := by
  simp [ofOperand, h]

theorem Token.ofOperand_csfr_none {short : Bool} {offset : BitVec 16}
    (h : Csfr.name? offset = none) :
    ofOperand short (.csfr offset) = [.text "#", int offset.toNat] := by
  simp [ofOperand, h]

theorem Token.eq_of_chars_csfr {short short' : Bool} {offset offset' : BitVec 16}
    (h : chars (ofOperand short (.csfr offset)) = chars (ofOperand short' (.csfr offset'))) :
    offset = offset' := by
  -- Only an offset without a name is printed with a number sign.
  have hnamed : ∀ {o : BitVec 16} {name : String} {v : Int}, Csfr.name? o = some name →
      chars [.register name.toLower] ≠ chars [.text "#", int v] := by
    intro o name v hname heq
    have hmem : '#' ∈ chars [.register name.toLower] := by rw [heq]; simp [chars_cons, print]
    rw [chars_cons, chars_nil, List.append_nil] at hmem
    exact (csfrName_legible hname '#' hmem).2 rfl
  cases hn : Csfr.name? offset with
  | none =>
    rw [ofOperand_csfr_none hn] at h
    cases hn' : Csfr.name? offset' with
    | none =>
      rw [ofOperand_csfr_none hn'] at h
      exact BitVec.eq_of_toNat_eq (Int.ofNat_inj.1 (chars_int (chars_tail h)))
    | some name' =>
      rw [ofOperand_csfr_some hn'] at h
      exact absurd h.symm (hnamed hn')
  | some name =>
    rw [ofOperand_csfr_some hn] at h
    cases hn' : Csfr.name? offset' with
    | none =>
      rw [ofOperand_csfr_none hn'] at h
      exact absurd h (hnamed hn)
    | some name' =>
      rw [ofOperand_csfr_some hn', chars_cons, chars_cons, chars_nil, List.append_nil,
        List.append_nil] at h
      exact csfrName_injective hn hn' (String.toList_inj.1 h)

namespace Operand.Alike

variable {named short short' : Bool} {o o' : Operand}

theorem symm (h : o.Alike named short short' o') : o'.Alike named short' short o := by
  cases h with
  | reg r r' hr hs => exact .reg r' r (fun h => hr (hs.trans h)) hs.symm
  | imm v v' => exact .imm v' v
  | high half half' => exact .high half' half
  | target a a' => exact .target a' a
  | place p p' hs hp =>
    refine .place p' p hs.symm ?_
    subst hs
    cases hp with
    | absolute a a' => exact .absolute a' a
    | based n n' o o' => exact .based n' n o' o
    | postIncrement n n' o o' hi => exact .postIncrement n' n o' o fun h => (hi h).symm
    | preIncrement n n' o o' => exact .preIncrement n' n o' o
    | bitReverse n n' => exact .bitReverse n' n
    | circular n n' o o' => exact .circular n' n o' o
  | csfr a a' hn => exact .csfr a' a hn
  | selector s hm hn => exact .selector s hm hn

theorem chars_eq_iff (h : o.Alike named short short' o') :
    chars (ofOperand short o) = chars (ofOperand short' o') ↔ o = o' := by
  constructor
  · intro heq
    cases h with
    | reg r r' hr hs =>
      simp only [ofOperand, ofRegister, chars_cons, chars_nil, List.append_nil, print] at heq
      rw [Register.name_injective hr hs heq]
    | imm v v' => rw [chars_int (chars_tail heq)]
    | high half half' =>
      rw [BitVec.eq_of_toNat_eq (Int.ofNat_inj.1 (chars_int (chars_tail heq)))]
    | target a a' => rw [chars_address heq]
    | place p p' hs hp => rw [hp.eq_of_chars (hs ▸ heq)]
    | csfr a a' => rw [eq_of_chars_csfr heq]
    | selector => rfl
  · rintro rfl
    cases h with
    | place p p' hs hp => rw [hs]
    | _ => rfl

end Operand.Alike

/-! ## Rows -/

/-- Where operands of a kind stand: in encodings of one length, in rows with a special function
register or in rows without. -/
def OperandKind.suits (named short : Bool) : OperandKind → Bool
  | fixed r => r.shape != .special
  | selector s => !named && selectors.contains s
  | csfr => named
  | absolute | based _ | basedLong => !short
  | indirect | indirectPost _ | scaled _ | scaledA15 _ | stackSlot => short
  | _ => true

theorem Opcode.operands_suit : ∀ g ∈ table, ∀ r ∈ g.rows, ∀ k ∈ r.operands,
    k.suits (r.operands.contains .csfr) g.format.isShort = true := by
  decide +kernel

theorem OperandKind.alike_of_resolve {k : OperandKind} {format format' : Format}
    {fields fields' : Fields} {addr addr' : Address} {named short short' : Bool} {o o' : Operand}
    (h : k.resolve format fields addr = .ok o) (h' : k.resolve format' fields' addr' = .ok o')
    (hs : k.suits named short = true) (hs' : k.suits named short' = true) :
    o.Alike named short short' o' := by
  have hfalse : ∀ {b : Bool}, (!b) = true → b = false := by simp
  cases k with
  | data f | address f => cases h; cases h'; exact .reg _ _ (by rintro ⟨⟩) rfl
  | dataPair f | addressPair f =>
    rw [(of_pair_eq_ok h).2, (of_pair_eq_ok h').2]
    exact .reg _ _ (by rintro ⟨⟩) rfl
  | fixed r => cases h; cases h'; exact .reg r r (bne_iff_ne.1 hs) rfl
  | selector s =>
    cases h; cases h'
    obtain ⟨hn, hm⟩ := Bool.and_eq_true_iff.1 hs
    exact .selector s (List.contains_iff_mem.1 hm) (hfalse hn)
  | signed bits | unsigned | index | position | position2 | width | bit =>
    cases h; cases h'; exact .imm _ _
  | high => cases h; cases h'; exact .high _ _
  | csfr => cases h; cases h'; exact .csfr _ _ hs
  | target kind => cases h; cases h'; exact .target _ _
  | absolute =>
    cases h; cases h'
    exact .place _ _ ((hfalse hs).trans (hfalse hs').symm) (.absolute _ _)
  | basedLong =>
    cases h; cases h'
    exact .place _ _ ((hfalse hs).trans (hfalse hs').symm) (.based _ _ _ _)
  | based mode =>
    have hlength : short = short' := (hfalse hs).trans (hfalse hs').symm
    cases mode with
    | plain => cases h; cases h'; exact .place _ _ hlength (.based _ _ _ _)
    | postIncrement =>
      cases h; cases h'
      -- With an offset field the encoding is long, and nothing is implied.
      exact .place _ _ hlength (.postIncrement _ _ _ _ fun h => absurd (hfalse hs) (by simp [h]))
    | preIncrement => cases h; cases h'; exact .place _ _ hlength (.preIncrement _ _ _ _)
    | bitReverse =>
      rw [(of_pair_eq_ok h).2, (of_pair_eq_ok h').2]
      exact .place _ _ hlength (.bitReverse _ _)
    | circular =>
      rw [(of_pair_eq_ok h).2, (of_pair_eq_ok h').2]
      exact .place _ _ hlength (.circular _ _ _ _)
  | indirectPost size =>
    cases h; cases h'
    exact .place _ _ (hs.trans hs'.symm) (.postIncrement _ _ _ _ fun _ => rfl)
  | indirect | scaled _ | scaledA15 _ | stackSlot =>
    cases h; cases h'
    exact .place _ _ (hs.trans hs'.symm) (.based _ _ _ _)

/-! ## Lines -/

namespace Token

/-- A character that ends the text of an operand: a comma, or a selector that follows it. -/
def Stop (named : Bool) (c : Char) : Prop := c = ',' ∨ named = false ∧ (c = 'l' ∨ c = 'u')

/-- The characters of operands other than special function registers and selectors. -/
def inner : List Char := ['[', ']', '+', 'r', '#'] ++ atomic

theorem not_stop_of_inner {named : Bool} {c : Char} (h : c ∈ inner) : ¬ Stop named c := by
  have hnot : ',' ∉ inner ∧ 'l' ∉ inner ∧ 'u' ∉ inner := by decide
  rintro (rfl | ⟨-, rfl | rfl⟩)
  · exact hnot.1 h
  · exact hnot.2.1 h
  · exact hnot.2.2 h

def Inner (t : Token) : Prop := ∀ c ∈ t.print.toList, c ∈ inner

theorem inner_of_isAtom {t : Token} (h : IsAtom t.print.toList) : t.Inner :=
  fun c hc => List.mem_append_right _ (h c hc)

theorem inner_int (v : Int) : (int v).Inner := inner_of_isAtom (isAtom_int v)

theorem inner_address (a : Address) : (address a).Inner := inner_of_isAtom (isAtom_address a)

theorem inner_register {r : Register} (h : r.Ordinary) : (ofRegister r).Inner :=
  inner_of_isAtom (Register.isAtom_name h)

theorem inner_marks : beginMem.Inner ∧ endMem.Inner ∧ (text "#").Inner ∧ (text "+").Inner ∧
    (text "+r").Inner ∧ (text "+c").Inner := by
  have hmarks : '[' ∈ inner ∧ ']' ∈ inner ∧ '#' ∈ inner ∧ '+' ∈ inner ∧ 'r' ∈ inner ∧
      'c' ∈ inner := by decide
  simp [Inner, print, hmarks]

theorem not_stop_of_forall_inner {named : Bool} {ts : List Token} (h : ∀ t ∈ ts, t.Inner) :
    ∀ c ∈ chars ts, ¬ Stop named c := by
  induction ts with
  | nil => simp [chars_nil]
  | cons t ts ih =>
    obtain ⟨ht, hts⟩ := List.forall_mem_cons.1 h
    rw [chars_cons]
    exact List.forall_mem_append.2 ⟨fun c hc => not_stop_of_inner (ht c hc), ih hts⟩

theorem inner_ofPlace {short : Bool} {p p' : Place} (h : p.Alike short p') :
    ∀ t ∈ ofPlace short p, t.Inner := by
  have ha : ∀ n, (ofRegister (.a n)).Inner := fun n => inner_register (by rintro ⟨⟩)
  have hp : ∀ n, (ofRegister (.p n)).Inner := fun n => inner_register (by rintro ⟨⟩)
  obtain ⟨hopen, hclose, -, hplus, hreverse, hcircular⟩ := inner_marks
  cases h with
  | based | postIncrement =>
    unfold ofPlace
    split_ifs <;> simp [ha, hopen, hclose, hplus, inner_int]
  | _ => simp [ofPlace, ha, hp, hopen, hclose, hplus, hreverse, hcircular, inner_int, inner_address]

end Token

namespace Operand.Alike

variable {named short short' : Bool} {o o' : Operand}

/-- The text of an operand has no character that stops it. -/
theorem not_stop (h : o.Alike named short short' o') (hs : ∀ s, o ≠ .selector s) :
    ∀ c ∈ chars (ofOperand short o), ¬ Stop named c := by
  obtain ⟨-, -, hnumber, -⟩ := inner_marks
  cases h with
  | reg r r' hr => exact not_stop_of_forall_inner (by simp [ofOperand, inner_register hr])
  | imm | high => exact not_stop_of_forall_inner (by simp [ofOperand, hnumber, inner_int])
  | target a => exact not_stop_of_forall_inner (by simp [ofOperand, inner_address])
  | place p p' _ hp => exact not_stop_of_forall_inner (inner_ofPlace hp)
  | selector s => exact absurd rfl (hs s)
  | csfr offset offset' hn =>
    cases hname : Csfr.name? offset with
    | none =>
      rw [ofOperand_csfr_none hname]
      exact not_stop_of_forall_inner (by simp [hnumber, inner_int])
    | some name =>
      rw [ofOperand_csfr_some hname, chars_cons, chars_nil, List.append_nil]
      rintro c hc (hcomma | ⟨hunnamed, -⟩)
      · exact (csfrName_legible hname c hc).1 hcomma
      · exact absurd hn (by simp [hunnamed])

theorem lead_eq (h : o.Alike named short short' o') (position : Nat) :
    lead position o = lead position o' := by
  cases h <;> rfl

end Operand.Alike

/-- The characters of operands, from the one at `position` on. -/
def Token.line (short : Bool) (position : Nat) : List Operand → List Char
  | [] => []
  | o :: os =>
    chars (lead position o) ++ (chars (ofOperand short o) ++ line short (position + 1) os)

theorem Instruction.toList_text (i : Instruction) :
    i.text.toList = i.mnemonic.toList ++ line (i.length == 2) 0 i.operands := by
  have hline : ∀ (os : List Operand) (k : Nat), chars (os.mapIdx fun position operand =>
      lead (k + position) operand ++ ofOperand (i.length == 2) operand).flatten =
        line (i.length == 2) k os := by
    intro os
    induction os with
    | nil => intro k; exact chars_nil
    | cons o os ih =>
      intro k
      rw [List.mapIdx_cons, List.flatten_cons, chars_append, chars_append, line, ← ih (k + 1),
        List.append_assoc]
      simp only [Nat.add_zero, Nat.add_assoc, Nat.add_comm 1]
  have h := hline i.operands 0
  simp only [Nat.zero_add] at h
  rw [← h, text, tokens, ← chars, chars_cons]
  rfl

variable {named short short' : Bool} {os os' : List Operand}

theorem Token.stop_line (h : List.Forall₂ (Operand.Alike named short short') os os')
    (position : Nat) : ∀ c ∈ (line short (position + 1) os).head?, Stop named c := by
  cases h with
  | nil => simp [line]
  | cons ho _ =>
    cases ho with
    | selector s hs hn =>
      have hall : ∀ s ∈ OperandKind.selectors, ∀ rest : List Char, ∀ c ∈ (s.toList ++ rest).head?,
          c = 'l' ∨ c = 'u' := by simp [OperandKind.selectors]
      intro c hc
      simp only [line, lead, ofOperand, chars_nil, chars_cons, print, List.nil_append,
        List.append_nil] at hc
      exact .inr ⟨hn, hall s hs _ c hc⟩
    | _ => simp [line, lead, chars_cons, print, Stop]

theorem Token.line_eq_iff (h : List.Forall₂ (Operand.Alike named short short') os os')
    (position : Nat) : line short position os = line short' position os' ↔ os = os' := by
  induction h generalizing position with
  | nil => simp [line]
  | @cons o o' os os' ho hos ih =>
    have hos' : List.Forall₂ (Operand.Alike named short' short) os' os :=
      (hos.imp fun _ _ h => h.symm).flip
    have hsplit : chars (ofOperand short o) ++ line short (position + 1) os =
        chars (ofOperand short' o') ++ line short' (position + 1) os' ↔
          chars (ofOperand short o) = chars (ofOperand short' o') ∧
            line short (position + 1) os = line short' (position + 1) os' := by
      refine ⟨fun heq => ?_, fun heq => by rw [heq.1, heq.2]⟩
      by_cases hs : ∃ s, o = .selector s
      · obtain ⟨s, rfl⟩ := hs
        cases ho
        exact ⟨rfl, List.append_cancel_left heq⟩
      · have hs' : ∀ s, o' ≠ .selector s := by
          rintro s rfl
          cases ho
          exact hs ⟨s, rfl⟩
        exact append_inj_of_stop (ho.not_stop (not_exists.1 hs)) (ho.symm.not_stop hs')
          (fun c hc => not_not.2 (stop_line hos position c hc))
          (fun c hc => not_not.2 (stop_line hos' position c hc)) heq
    rw [line, line, ho.lead_eq, List.append_right_inj, hsplit, ho.chars_eq_iff,
      ih (position + 1),
      List.cons_eq_cons]

/-! ## Decoded instructions -/

namespace Instruction

variable {isa : Isa} {bytes : List Byte} {addr : Address} {i : Instruction}

/-- The operands of a decoded instruction are read from a row of the table, in an encoding of the
length that the row's format has. -/
theorem resolved_of_decode (h : decode isa bytes addr = .ok i) :
    ∃ g ∈ Opcode.table, i.row ∈ g.rows ∧ (i.length == 2) = g.format.isShort ∧ ∃ raw,
      List.Forall₂ (fun k o => k.resolve g.format (.extract g.format raw) addr = .ok o)
        i.row.operands i.operands := by
  unfold decode at h
  split at h
  · cases h
  next e he =>
  have hproper := encodingOf_proper he
  by_cases hsel : ∃ g r, Selects e.raw g r
  · obtain ⟨g, r, hsel⟩ := hsel
    rw [ofEncoding_of_selects hproper hsel] at h
    split at h
    · cases hos : r.operands.mapM (·.resolve g.format (.extract g.format e.raw) addr) with
      | error => rw [hos] at h; cases h
      | ok os =>
        rw [hos] at h
        cases h
        have hlong : e.long = !g.format.isShort := hproper.bit_zero ▸ hsel.length
        refine ⟨g, hsel.group_mem, hsel.row_mem, ?_, e.raw, forall₂_of_mapM hos⟩
        cases hshort : g.format.isShort <;> simp [Encoding.length, hlong, hshort]
    · cases h
  · obtain ⟨p, herr⟩ | ⟨p, s, herr⟩ := @ofEncoding_of_not_selects isa e addr hproper hsel
    · rw [herr] at h; cases h
    · rw [herr] at h; cases h

end Instruction

theorem alike_of_resolved {named short short' : Bool} {format format' : Format}
    {fields fields' : Fields} {addr addr' : Address} {ks : List OperandKind}
    {os os' : List Operand}
    (h : List.Forall₂ (fun k o => k.resolve format fields addr = .ok o) ks os)
    (h' : List.Forall₂ (fun k o => k.resolve format' fields' addr' = .ok o) ks os')
    (hs : ∀ k ∈ ks, k.suits named short = true) (hs' : ∀ k ∈ ks, k.suits named short' = true) :
    List.Forall₂ (Operand.Alike named short short') os os' := by
  induction h generalizing os' with
  | nil => cases h'; exact .nil
  | cons hk _ ih =>
    obtain ⟨hsk, hs⟩ := List.forall_mem_cons.1 hs
    obtain ⟨hsk', hs'⟩ := List.forall_mem_cons.1 hs'
    cases h' with
    | cons hk' hks' => exact .cons (OperandKind.alike_of_resolve hk hk' hsk hsk') (ih hks' hs hs')

/-- Instructions of one row at one address have the same line exactly if they have the same
operands. -/
theorem text_faithful {isa isa' : Isa} {bytes bytes' : List Byte} {addr : Address}
    {i i' : Instruction} (h : Instruction.decode isa bytes addr = .ok i)
    (h' : Instruction.decode isa' bytes' addr = .ok i') (hrow : i.row = i'.row) :
    i.text = i'.text ↔ i.operands = i'.operands := by
  obtain ⟨g, hg, hr, hs, raw, hos⟩ := Instruction.resolved_of_decode h
  obtain ⟨g', hg', hr', hs', raw', hos'⟩ := Instruction.resolved_of_decode h'
  have hsuits := Opcode.operands_suit g hg i.row hr
  have hsuits' := Opcode.operands_suit g' hg' i'.row hr'
  rw [← hs] at hsuits
  rw [← hs', ← hrow] at hsuits'
  rw [← hrow] at hos'
  have hmnemonic : i.mnemonic = i'.mnemonic := congrArg Row.mnemonic hrow
  rw [← String.toList_inj, i.toList_text, i'.toList_text, hmnemonic, List.append_right_inj,
    line_eq_iff (alike_of_resolved hos hos' hsuits hsuits')]

/-- A register with a name and its neighbour without one; bits that the format does not use are
not shown. -/
theorem text_faithful_psw : ∃ i i' j,
    Instruction.decode .v16 [0x4D, 0x40, 0xE0, 0x1F] 0 = .ok i ∧
      Instruction.decode .v16 [0x4D, 0x4F, 0xE0, 0x1F] 0 = .ok i' ∧
      Instruction.decode .v16 [0x4D, 0x50, 0xE0, 0x1F] 0 = .ok j ∧ i.row = i'.row ∧
      i.row = j.row ∧ i.text = i'.text ∧ i.text ≠ j.text := by
  have hdecode : ∃ i i' j, Instruction.decode .v16 [0x4D, 0x40, 0xE0, 0x1F] 0 = .ok i ∧
      Instruction.decode .v16 [0x4D, 0x4F, 0xE0, 0x1F] 0 = .ok i' ∧
      Instruction.decode .v16 [0x4D, 0x50, 0xE0, 0x1F] 0 = .ok j ∧ i.row = i'.row ∧
      i.row = j.row ∧ i.operands = i'.operands ∧ i.operands ≠ j.operands :=
    ⟨_, _, _, rfl, rfl, rfl, by decide, by decide, by decide, by decide⟩
  obtain ⟨i, i', j, hi, hi', hj, hrow, hrow', hsame, hother⟩ := hdecode
  exact ⟨i, i', j, hi, hi', hj, hrow, hrow', (text_faithful hi hi' hrow).2 hsame,
    fun heq => hother ((text_faithful hi hj hrow').1 heq)⟩

end Tricore
