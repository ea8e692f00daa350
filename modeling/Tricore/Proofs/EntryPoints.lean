import Mathlib
import Tricore.Proofs.Plans

/-!
# Entry points

`probe`, `render` and `liftBytes` see one decoder: they agree on the length of what they accept and
on the error of what they refuse (`entry_points_agree`). Lifting adds no refusals of its own, since
every instruction that decodes has effects. Bit 0 of the first byte gives the length, also of an
encoding that is refused.
-/

namespace Tricore

/-- The length of an encoding with this first byte. -/
def Byte.encodingLength (b : Byte) : Nat := if b.getLsbD 0 then 4 else 2

theorem Opcode.primaryOf_bit_zero {raw : Word} {long : Bool} (h : raw.getLsbD 0 = long) :
    (primaryOf raw long).getLsbD 0 = long := by
  unfold primaryOf
  split
  · next hl => simp_all
  · split
    · next hs => simp_all
    · simpa [bitsAt] using h

namespace Instruction

variable {isa : Isa} {bytes : List Byte} {addr : Address} {i : Instruction} {err : DecodeError}

/-- The encoding that bytes start with is as long as the first byte says. -/
theorem encodingOf_length {b0 b1 : Byte} {rest : List Byte} :
    (∀ e, encodingOf (b0 :: b1 :: rest) = .ok e →
      e.long = b0.getLsbD 0 ∧ e.length = b0.encodingLength) ∧
    ∀ need, encodingOf (b0 :: b1 :: rest) = .error need → need = b0.encodingLength := by
  unfold encodingOf Byte.encodingLength Encoding.length
  by_cases hb : b0.getLsbD 0 = true
  · simp only [hb, if_true]
    constructor
    · intro e h
      split at h <;> cases h
      exact ⟨rfl, rfl⟩
    · intro need h
      split at h <;> cases h
      rfl
  · simp only [hb]
    refine ⟨fun e h => ?_, fun need h => nomatch h⟩
    cases h
    exact ⟨rfl, rfl⟩

theorem length_of_decode {b0 b1 : Byte} {rest : List Byte}
    (h : decode isa (b0 :: b1 :: rest) addr = .ok i) : i.length = b0.encodingLength := by
  obtain ⟨e, he, -, hlen, -⟩ := of_decode h
  rw [hlen, (encodingOf_length.1 e he).2]

theorem skip_of_decode {b0 b1 : Byte} {rest : List Byte}
    (h : decode isa (b0 :: b1 :: rest) addr = .error err) : err.skip = b0.encodingLength := by
  unfold decode at h
  split at h
  · next need hn =>
    cases h
    exact encodingOf_length.2 need hn
  next e he =>
  obtain ⟨hlong, hlen⟩ := encodingOf_length.1 e he
  have hbit := (Opcode.primaryOf_bit_zero (encodingOf_proper he).bit_zero).trans hlong
  simp only [ofEncoding] at h
  split at h
  · cases h
    simp only [DecodeError.skip, hbit, Byte.encodingLength]
  split at h
  · cases h
    simp only [DecodeError.skip, hbit, Byte.encodingLength]
  split at h
  · split at h
    · cases h; exact hlen
    · cases h
  · cases h; exact hlen

end Instruction

theorem probe_eq {isa : Isa} {bytes : List Byte} {addr : Address} {max : Nat}
    (h : bytes.length ≤ max) :
    probe isa bytes addr max =
      (Instruction.decode isa bytes addr).map fun i => (i.length, i.edges) := by
  unfold probe
  rw [List.take_of_length_le h]
  cases Instruction.decode isa bytes addr <;> rfl

/-- All entry points accept the same bytes with the same length, or refuse them with the same error.
Whatever decodes can be lifted into any trace, and its statements write the flags its row declares.
If two bytes are there, length and skip follow from bit 0 of the first. -/
theorem entry_points_agree (isa : Isa) (bytes : List Byte) (addr : Address) (t : Trace) (max : Nat)
    (hmax : bytes.length ≤ max) :
    ((∃ length edges tokens t', probe isa bytes addr max = .ok (length, edges) ∧
        render isa bytes addr = .ok (length, tokens) ∧
        liftBytes isa bytes addr t = .ok (length, t')) ∨
      ∃ err, probe isa bytes addr max = .error err ∧ render isa bytes addr = .error err ∧
        liftBytes isa bytes addr t = .error err) ∧
    (∀ i, Instruction.decode isa bytes addr = .ok i →
      ∃ stmts next, i.lift t = .ok { t with stmts := t.stmts ++ stmts, nextLabel := next } ∧
        flagsWritten stmts = i.row.flags) ∧
    ∀ b0 b1 rest, bytes = b0 :: b1 :: rest →
      (∀ length edges, probe isa bytes addr max = .ok (length, edges) →
        length = if b0.getLsbD 0 then 4 else 2) ∧
      ∀ err, probe isa bytes addr max = .error err →
        err.skip = if b0.getLsbD 0 then 4 else 2 := by
  refine ⟨?_, fun i hi => ?_, ?_⟩
  · rw [probe_eq hmax]
    unfold render liftBytes
    cases hi : Instruction.decode isa bytes addr with
    | error err => exact .inr ⟨err, rfl, rfl, rfl⟩
    | ok i =>
      obtain ⟨stmts, next, hl, -⟩ := Instruction.lift_of_decode hi t
      refine .inl ⟨i.length, i.edges, i.tokens, { t with stmts := t.stmts ++ stmts, nextLabel := next },
        rfl, rfl, ?_⟩
      simp only [bind, Except.bind, hl]
      rfl
  · obtain ⟨stmts, next, hl, -, hflags⟩ := Instruction.lift_of_decode hi t
    exact ⟨stmts, next, hl, hflags⟩
  · rintro b0 b1 rest rfl
    rw [probe_eq hmax]
    cases hi : Instruction.decode isa (b0 :: b1 :: rest) addr with
    | error err =>
      refine ⟨fun _ _ h => (nomatch h), fun err' h => ?_⟩
      cases h
      exact Instruction.skip_of_decode hi
    | ok i =>
      refine ⟨fun length edges h => ?_, fun _ h => (nomatch h)⟩
      cases h
      exact Instruction.length_of_decode hi

/-- `add d2, d1`, seen through more bytes than there are. -/
theorem entry_points_agree_add : ∃ edges tokens t',
    probe .v16 [0x42, 0x12] 0x100 8 = .ok (2, edges) ∧
      render .v16 [0x42, 0x12] 0x100 = .ok (2, tokens) ∧
      liftBytes .v16 [0x42, 0x12] 0x100 .empty = .ok (2, t') := by
  obtain ⟨hagree, -, hlength⟩ :=
    entry_points_agree .v16 [0x42, 0x12] 0x100 .empty 8 (by decide)
  have hok : (probe .v16 [0x42, 0x12] 0x100 8).isOk = true := by decide +kernel
  rcases hagree with ⟨length, edges, tokens, t', hp, hr, hl⟩ | ⟨err, hp, -⟩
  · obtain rfl := (hlength _ _ _ rfl).1 length edges hp
    exact ⟨edges, tokens, t', hp, hr, hl⟩
  · rw [hp] at hok
    cases hok

end Tricore
