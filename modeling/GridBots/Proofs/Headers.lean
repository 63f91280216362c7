import GridBots.Header
import Mathlib.Data.List.Induction
import Mathlib.Data.Nat.Bitwise
import Mathlib.Tactic.IntervalCases

/-!
# Headers of instructions

The header of an instruction is made from the flags of its operands, one after the
other (`Header.ofFlags`), and is read back from the word it is encoded as
(`decode_encode_ofFlags`). It has the opcode, as many operands as flags, and the
operand `i` is immediate exactly if the flag `i` is set (`isImmediate_ofFlags`).
-/

namespace GridBots.Header

/-- Opcodes are told apart by their numbers. -/
theorem opcode_eq_of_value_eq {op op' : Opcode} (h : op.value = op'.value) : op = op' :=
  Option.some.inj (by rw [← Opcode.ofValue?_value op, h, Opcode.ofValue?_value])

variable {op : Opcode} {flags : List Bool} {h : Header}

/-- A header whose parts fit into a word is read back from it. -/
theorem decode_encode (ho : h.opcode < opcodeRange) (hc : h.operandCount ≤ maxOperands)
    (hi : h.immediateBits < flagRange) : decode (encode h) = h := by
  obtain ⟨opcode, count, bits⟩ := h
  simp only [opcodeRange, maxOperands, flagRange] at ho hc hi
  have hm : min count 0xFFFFFFFF % 8 = count := by omega
  have hlt : (count * 0x80 + bits % 0x80) * 0x400000 + opcode % 0x400000 < Word.count := by
    rw [Word.count]
    omega
  simp only [decode, encode, modifier, countField, opcodeRange, flagRange, hm, Word.bits_ofBits hlt,
    Header.mk.injEq]
  omega

/-! ## Headers made from flags -/

theorem ofFlags_append (op : Opcode) (flags : List Bool) (flag : Bool) :
    ofFlags op (flags ++ [flag]) = (ofFlags op flags).push flag :=
  List.foldl_append

theorem push_of_lt (hc : h.operandCount < maxOperands) (immediate : Bool) :
    h.push immediate = ⟨h.opcode, h.operandCount + 1,
      if immediate then h.immediateBits ||| flag h.operandCount else h.immediateBits⟩ := by
  rw [push, push?, if_pos hc, Option.getD_some]

theorem opcode_ofFlags : (ofFlags op flags).opcode = op.value := by
  induction flags using List.reverseRecOn with
  | nil => rfl
  | append_singleton flags flag ih =>
    rw [ofFlags_append, push, push?]
    split
    · exact ih
    · exact ih

theorem operandCount_ofFlags (hl : flags.length ≤ maxOperands) :
    (ofFlags op flags).operandCount = flags.length := by
  induction flags using List.reverseRecOn with
  | nil => rfl
  | append_singleton flags flag ih =>
    rw [List.length_append, List.length_singleton] at hl ⊢
    rw [ofFlags_append, operandCount_push, ih (Nat.le_of_succ_le hl), if_pos (Nat.lt_of_succ_le hl)]

theorem flag_eq_two_pow {index : Nat} (h : index < maxOperands) : flag index = 2 ^ (6 - index) := by
  rw [maxOperands] at h
  interval_cases index <;> rfl

/-- The bits of the header are the flags, the first of them highest. -/
theorem testBit_ofFlags (hl : flags.length ≤ maxOperands) {index : Nat} (hi : index < maxOperands) :
    (ofFlags op flags).immediateBits.testBit (6 - index) = flags.getD index false := by
  induction flags using List.reverseRecOn with
  | nil => exact Nat.zero_testBit _
  | append_singleton flags flag ih =>
    rw [List.length_append, List.length_singleton] at hl
    have hc : (ofFlags op flags).operandCount = flags.length :=
      operandCount_ofFlags (Nat.le_of_succ_le hl)
    have hs : (6 - flags.length = 6 - index) = (flags.length = index) := by
      rw [maxOperands] at hl hi
      exact propext ⟨fun h => by omega, fun h => by rw [h]⟩
    have hb : (ofFlags op (flags ++ [flag])).immediateBits.testBit (6 - index) =
        (flags.getD index false || flag && decide (flags.length = index)) := by
      rw [ofFlags_append, push_of_lt (by rw [hc]; exact hl), hc, flag_eq_two_pow hl,
        ← ih (Nat.le_of_succ_le hl)]
      cases flag with
      | false => exact (Bool.or_false _).symm
      | true =>
        rw [if_pos rfl, Nat.testBit_or, Nat.testBit_two_pow, Bool.true_and]
        simp only [hs]
    rw [hb]
    -- The flag is one of those before, the last one, or there is none.
    rcases lt_trichotomy index flags.length with hlt | rfl | hgt
    · rw [List.getD_append _ _ _ _ hlt, decide_eq_false (Nat.ne_of_gt hlt), Bool.and_false,
        Bool.or_false]
    · rw [List.getD_append_right _ _ _ _ le_rfl, Nat.sub_self, List.getD_eq_default _ _ le_rfl,
        decide_eq_true rfl, Bool.and_true, Bool.false_or]
      rfl
    · rw [List.getD_eq_default _ _ hgt.le, decide_eq_false (Nat.ne_of_lt hgt), Bool.and_false,
        List.getD_eq_default]
      · rfl
      · rw [List.length_append]
        exact hgt

theorem immediateBits_ofFlags_lt (hl : flags.length ≤ maxOperands) :
    (ofFlags op flags).immediateBits < flagRange := by
  induction flags using List.reverseRecOn with
  | nil => exact Nat.zero_lt_succ _
  | append_singleton flags flag ih =>
    rw [List.length_append, List.length_singleton] at hl
    have hc : (ofFlags op flags).operandCount = flags.length :=
      operandCount_ofFlags (Nat.le_of_succ_le hl)
    have hf : 2 ^ (6 - flags.length) < 2 ^ 7 := Nat.pow_lt_pow_right (by decide) (by omega)
    rw [ofFlags_append, push_of_lt (by rw [hc]; exact hl), hc, flag_eq_two_pow hl]
    dsimp only
    split
    · exact Nat.or_lt_two_pow (n := 7) (ih (Nat.le_of_succ_le hl)) hf
    · exact ih (Nat.le_of_succ_le hl)

/-- An operand is immediate exactly if its flag is set. -/
theorem isImmediate_ofFlags (hl : flags.length ≤ maxOperands) (index : Nat) :
    (ofFlags op flags).isImmediate index = flags.getD index false := by
  rw [isImmediate, operandCount_ofFlags hl]
  by_cases hi : index < flags.length
  · have hi' : index < maxOperands := hi.trans_le hl
    rw [decide_eq_true hi, Bool.true_and, flag_eq_two_pow hi', Nat.and_two_pow,
      testBit_ofFlags hl hi']
    cases flags.getD index false with
    | false => simp
    | true => simp
  · rw [decide_eq_false hi, Bool.false_and, List.getD_eq_default _ _ (not_lt.1 hi)]

/-- The header of an instruction is read back from its word. -/
theorem decode_encode_ofFlags (hl : flags.length ≤ maxOperands) :
    decode (encode (ofFlags op flags)) = ofFlags op flags := by
  refine decode_encode ?_ ?_ (immediateBits_ofFlags_lt hl)
  · rw [opcode_ofFlags]
    exact op.value_lt.trans (by decide)
  · rw [operandCount_ofFlags hl]
    exact hl

theorem width_ofFlags (hl : flags.length ≤ maxOperands) :
    (ofFlags op flags).width = flags.length + 1 := by
  rw [width, operandCount_ofFlags hl]
  rw [maxOperands] at hl
  omega

end GridBots.Header
