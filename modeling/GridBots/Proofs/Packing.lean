import GridBots.Proofs.Headers
import Mathlib.Data.Set.Function

/-!
# Headers packed into words

A word has 22 bits for the opcode of a header, three for the number of operands and seven for
the flags. Packing puts the parts together by masks and shifts, and reading takes them apart in
the same way (`bits_encode_eq_or`, `modifier_eq_or`, `decode_eq_and`).

Of a part that has more bits than a word has for it, only the low ones are kept
(`decode_encode_eq`); a number of operands beyond 32 bits is before that taken to be the greatest
of those. So the headers that are read back as they were are exactly those that *fit*
(`Header.Fits`), and packing is a bijection between these and all words (`bijOn_encode`).

The header of an instruction is made by recording its operands one after the other, and it always
fits: the first seven are recorded, and those after them are refused and leave the header as it
is (`push?_ofFlags`, `ofFlags_take`). Both together are `packed_as_recorded`.
-/

namespace GridBots.Header

variable {op : Opcode} {flags : List Bool} {h : Header}

/-- Each part of a header has no more bits than there are for it in a word. -/
@[mk_iff]
structure Fits (h : Header) : Prop where
  /-- The opcode has 22 bits. -/
  opcode_lt : h.opcode < opcodeRange
  /-- There are at most seven operands. -/
  operandCount_le : h.operandCount ≤ maxOperands
  /-- There are seven flags. -/
  immediateBits_lt : h.immediateBits < flagRange

theorem bits_encode (h : Header) :
    (encode h).bits = h.modifier * opcodeRange + h.opcode % opcodeRange := by
  refine Word.bits_ofBits ?_
  simp only [modifier, countField, flagRange, opcodeRange, Word.count]
  omega

/-- What is read back of a header: of each part the bits that a word has for it, and seven
    operands if their number is beyond 32 bits. -/
theorem decode_encode_eq (h : Header) :
    decode (encode h) = ⟨h.opcode % opcodeRange, h.countField, h.immediateBits % flagRange⟩ := by
  simp only [decode, bits_encode, modifier, flagRange, opcodeRange, Header.mk.injEq]
  omega

/-- A number of operands that is beyond 32 bits is read back as seven. -/
example : decode (encode ⟨3, 0x100000000, 0⟩) = ⟨3, 7, 0⟩ := by decide

theorem fits_decode (w : Word) : (decode w).Fits where
  opcode_lt := Nat.mod_lt _ (by decide)
  operandCount_le := decode_operandCount_le w
  immediateBits_lt := Nat.mod_lt _ (by decide)

theorem decode_encode_eq_self_iff : decode (encode h) = h ↔ h.Fits := by
  refine ⟨fun heq => heq ▸ fits_decode (encode h), fun hf => ?_⟩
  exact decode_encode hf.opcode_lt hf.operandCount_le hf.immediateBits_lt

/-- Headers that fit are the same thing as words. -/
theorem bijOn_encode : Set.BijOn encode {h | h.Fits} Set.univ := by
  have hinv : Set.InvOn decode encode {h | h.Fits} Set.univ :=
    ⟨fun _ hf => decode_encode_eq_self_iff.2 hf, fun w _ => encode_decode w⟩
  exact hinv.bijOn (fun _ _ => Set.mem_univ _) fun w _ => fits_decode w

/-! ## Masks and shifts -/

theorem and_opcodeMask (n : Nat) : n &&& opcodeMask = n % opcodeRange :=
  Nat.and_two_pow_sub_one_eq_mod n 22

theorem and_modifierMask (n : Nat) : n &&& modifierMask = n % modifierRange :=
  Nat.and_two_pow_sub_one_eq_mod n 10

theorem and_immediateMask (n : Nat) : n &&& immediateMask = n % flagRange :=
  Nat.and_two_pow_sub_one_eq_mod n 7

/-- The modifier is the number of operands, shifted above the flags. -/
theorem modifier_eq_or (h : Header) :
    h.modifier = h.countField <<< countShift ||| h.immediateBits &&& immediateMask := by
  have hlt : h.immediateBits % flagRange < 2 ^ countShift := Nat.mod_lt _ (by decide)
  rw [and_immediateMask, ← Nat.shiftLeft_add_eq_or_of_lt hlt, Nat.shiftLeft_eq]
  rfl

/-- A header word is the opcode, and above it the modifier. -/
theorem bits_encode_eq_or (h : Header) :
    (encode h).bits = h.opcode &&& opcodeMask ||| h.modifier <<< modifierShift := by
  have hlt : h.opcode % opcodeRange < 2 ^ modifierShift := Nat.mod_lt _ (by decide)
  rw [and_opcodeMask, Nat.or_comm, ← Nat.shiftLeft_add_eq_or_of_lt hlt, Nat.shiftLeft_eq,
    bits_encode]
  rfl

/-- The parts of a header are cut out of its word. -/
theorem decode_eq_and (w : Word) :
    decode w = ⟨w.bits &&& opcodeMask, (w.bits >>> modifierShift &&& modifierMask) >>> countShift,
      w.bits >>> modifierShift &&& modifierMask &&& immediateMask⟩ := by
  have hlt : w.bits / opcodeRange < modifierRange := Nat.div_lt_of_lt_mul w.bits_lt
  have hmod : w.bits >>> modifierShift &&& modifierMask = w.bits / opcodeRange := by
    rw [and_modifierMask, Nat.shiftRight_eq_div_pow]
    exact Nat.mod_eq_of_lt hlt
  rw [hmod, and_opcodeMask, and_immediateMask, Nat.shiftRight_eq_div_pow]
  rfl

/-! ## Operands recorded one after the other -/

/-- Only the first seven operands are recorded. -/
theorem ofFlags_take (op : Opcode) (flags : List Bool) :
    ofFlags op (flags.take maxOperands) = ofFlags op flags := by
  induction flags using List.reverseRecOn with
  | nil => rfl
  | append_singleton flags flag ih =>
    rcases Nat.lt_or_ge flags.length maxOperands with hlt | hge
    · have hle : (flags ++ [flag]).length ≤ maxOperands := by
        rw [List.length_append]
        exact hlt
      rw [List.take_of_length_le hle]
    · -- Seven operands have been recorded before, and there is no room for this one.
      have hfull : maxOperands ≤ (ofFlags op flags).operandCount := by
        rw [← ih, operandCount_ofFlags (List.length_take_le _ _), List.length_take_of_le hge]
      rw [List.take_append_of_le_length hge, ih, ofFlags_append, push_of_le hfull]

theorem operandCount_ofFlags_eq_min :
    (ofFlags op flags).operandCount = min flags.length maxOperands := by
  rw [← ofFlags_take, operandCount_ofFlags (List.length_take_le _ _), List.length_take, min_comm]

theorem operandCount_ofFlags_lt_iff :
    (ofFlags op flags).operandCount < maxOperands ↔ flags.length < maxOperands := by
  rw [operandCount_ofFlags_eq_min, min_lt_iff, or_iff_left (lt_irrefl _)]

/-- An operand is recorded exactly if fewer than seven have been recorded before. -/
theorem push?_ofFlags (op : Opcode) (flags : List Bool) (flag : Bool) :
    (ofFlags op flags).push? flag =
      if flags.length < maxOperands then some (ofFlags op (flags ++ [flag])) else none := by
  split
  · next hlt => rw [push?_of_lt (operandCount_ofFlags_lt_iff.2 hlt), ofFlags_append]
  · next hge => rw [push?, if_neg (mt operandCount_ofFlags_lt_iff.1 hge)]

/-- Packing headers into words loses nothing that a word has room for. Every word is that of the
    header read from it; the headers read back as they were are exactly those whose opcode has 22
    bits, whose operands are at most seven, and whose flags are seven; and packing is a bijection
    between these and all words.

    However many operands are recorded in a new header, the first seven are accepted, the others
    are refused, and the header is then the one that the first seven have made. It is read back
    from its word, has as many operands as were accepted, and the operand `i` is immediate
    exactly if it was accepted and recorded as immediate. -/
theorem packed_as_recorded :
    (∀ w : Word, encode (decode w) = w) ∧
      (∀ h : Header, decode (encode h) = h ↔
        h.opcode < opcodeRange ∧ h.operandCount ≤ maxOperands ∧ h.immediateBits < flagRange) ∧
      Set.BijOn encode {h | h.Fits} Set.univ ∧
      ∀ (op : Opcode) (flags : List Bool),
        (∀ flag, (ofFlags op flags).push? flag =
          if flags.length < maxOperands then some (ofFlags op (flags ++ [flag])) else none) ∧
        ofFlags op flags = ofFlags op (flags.take maxOperands) ∧
        decode (encode (ofFlags op flags)) = ofFlags op flags ∧
        (ofFlags op flags).opcode = op.value ∧
        (ofFlags op flags).operandCount = min flags.length maxOperands ∧
        ∀ i, (ofFlags op flags).isImmediate i = (flags.take maxOperands).getD i false := by
  refine ⟨encode_decode, fun h => decode_encode_eq_self_iff.trans h.fits_iff, bijOn_encode,
    fun op flags => ?_⟩
  have hl : (flags.take maxOperands).length ≤ maxOperands := List.length_take_le _ _
  refine ⟨push?_ofFlags op flags, (ofFlags_take op flags).symm, ?_, opcode_ofFlags,
    operandCount_ofFlags_eq_min, fun i => ?_⟩
  · rw [← ofFlags_take, decode_encode_ofFlags hl]
  · rw [← ofFlags_take, isImmediate_ofFlags hl]

/-- Of nine operands, the last two are refused. -/
example : decode (encode (ofFlags .add [false, true, false, true, true, false, true, true, true])) =
    ⟨Opcode.add.value, 7, 0b0101101⟩ := by decide

end GridBots.Header
