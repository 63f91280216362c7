import GridBots.Opcode
import GridBots.Word

/-!
# Instruction headers

An instruction is a *header* word and then its operands, a word each. The header
has the number of the opcode in its low 22 bits. The 10 bits above them, the
*modifier*, hold the number of operands and then a flag for each of up to seven
operands, the first operand's flag highest: if it is set, the operand is
*immediate*, that is, the operand's word is the value meant. Otherwise the word
is the address of that value.

* `encode_decode`: every word is the encoding of the header it decodes to.
-/

namespace GridBots

/-- The parts of an instruction's header. -/
structure Header where
  /-- The number of the opcode, whether there is such an opcode or not. -/
  opcode : Nat
  /-- How many operands follow. -/
  operandCount : Nat
  /-- The flags of the operands, the flag of operand `i` being bit `6 - i`. -/
  immediateBits : Nat
  deriving DecidableEq, Repr

namespace Header

/-- An instruction has at most seven operands. -/
def maxOperands : Nat := 7

/-- The lowest bit of the modifier. -/
def modifierShift : Nat := 22

/-- The lowest bit, within the modifier, of the number of operands. -/
def countShift : Nat := 7

/-- The number of opcodes that a header word can tell apart, 2²². -/
def opcodeRange : Nat := 0x400000

/-- The number of ways to set the flags, 2⁷. -/
def flagRange : Nat := 0x80

/-- The number of modifiers, 2¹⁰. -/
def modifierRange : Nat := 0x400

/-- The bits of the opcode in a header word. -/
def opcodeMask : Nat := opcodeRange - 1

/-- The bits of the modifier, once it is shifted down. -/
def modifierMask : Nat := modifierRange - 1

/-- The bits of the flags within the modifier. -/
def immediateMask : Nat := flagRange - 1

/-- The header of an instruction without operands. -/
def new (op : Opcode) : Header :=
  ⟨op.value, 0, 0⟩

/-- The flag of the operand with an index, as it stands in `immediateBits`. -/
def flag (index : Nat) : Nat :=
  0x40 >>> index

/-- Records one more operand, unless there are seven already. -/
def push? (h : Header) (immediate : Bool) : Option Header :=
  if h.operandCount < maxOperands then
    some { h with
      operandCount := h.operandCount + 1
      immediateBits := if immediate then h.immediateBits ||| flag h.operandCount else h.immediateBits }
  else none

/-- Records one more operand if there is room for it. -/
def push (h : Header) (immediate : Bool) : Header :=
  (h.push? immediate).getD h

/-- The header of an instruction whose operands are immediate as the flags say. -/
def ofFlags (op : Opcode) (flags : List Bool) : Header :=
  flags.foldl push (new op)

/-- Whether the operand with an index is there, and immediate. -/
def isImmediate (h : Header) (index : Nat) : Bool :=
  index < h.operandCount && h.immediateBits &&& flag index != 0

/-- The number of operands as it fits into three bits. A number that is not
    even one of 32 bits is taken to be the greatest of those. -/
def countField (h : Header) : Nat :=
  min h.operandCount 0xFFFFFFFF % 8

/-- The upper ten bits of the header word. -/
def modifier (h : Header) : Nat :=
  h.countField * flagRange + h.immediateBits % flagRange

/-- The number of words of the instruction, at most the greatest number of 64 bits. -/
def width (h : Header) : Nat :=
  min (h.operandCount + 1) 0xFFFFFFFFFFFFFFFF

/-- The header as a word. -/
def encode (h : Header) : Word :=
  Word.ofBits (h.modifier * opcodeRange + h.opcode % opcodeRange)

/-- The header that a word is, of whatever bits the word is made. -/
def decode (w : Word) : Header where
  opcode := w.bits % opcodeRange
  operandCount := w.bits / opcodeRange / flagRange
  immediateBits := w.bits / opcodeRange % flagRange

theorem push?_of_lt {h : Header} (hc : h.operandCount < maxOperands) (immediate : Bool) :
    h.push? immediate = some (h.push immediate) := by
  rw [push, push?, if_pos hc, Option.getD_some]

theorem push_of_le {h : Header} (hc : maxOperands ≤ h.operandCount) (immediate : Bool) :
    h.push immediate = h := by
  rw [push, push?, if_neg (Nat.not_lt.2 hc), Option.getD_none]

theorem operandCount_push (h : Header) (immediate : Bool) :
    (h.push immediate).operandCount =
      if h.operandCount < maxOperands then h.operandCount + 1 else h.operandCount := by
  rw [push, push?]
  split <;> rfl

theorem decode_operandCount_le (w : Word) : (decode w).operandCount ≤ maxOperands := by
  have := w.bits_lt
  simp only [decode, opcodeRange, flagRange, maxOperands, Word.count] at *
  omega

theorem width_decode (w : Word) : (decode w).width = (decode w).operandCount + 1 := by
  have := decode_operandCount_le w
  simp only [width, maxOperands] at *
  omega

theorem encode_decode (w : Word) : encode (decode w) = w := by
  have := w.bits_lt
  refine (congrArg Word.ofBits ?_).trans w.ofBits_bits
  simp only [decode, modifier, countField, opcodeRange, flagRange, Word.count] at *
  omega

end Header

end GridBots
