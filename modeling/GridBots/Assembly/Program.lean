import GridBots.Header

/-!
# Programs

A *program* is a sequence of words, each with the number of the line it comes
from. It can be read as a sequence of instructions: a header, as many operands
as the header says, and so on. The words need not be meant so, but they can
always be read so, up to a last instruction that may lack operands.
-/

namespace GridBots

/-- A word of a program. -/
structure Cell where
  word : Word
  /-- The number of the line it comes from. -/
  line : Nat
  deriving DecidableEq, Repr

/-- A program that is ready to be loaded into the memory of a bot. -/
structure Program where
  cells : List Cell
  /-- The number of variables it uses. -/
  variableCount : Nat
  deriving DecidableEq, Repr

/-- An instruction, read from words. -/
structure Instruction where
  /-- The address of its header. -/
  address : Nat
  header : Header
  operands : List Word
  deriving DecidableEq, Repr

namespace Instruction

/-- The opcode of an instruction, if its number is one of an opcode. -/
def opcode? (i : Instruction) : Option Opcode :=
  Opcode.ofValue? i.header.opcode

/-- The instruction with the word `w` at an address for its header, where `rest`
    are the words after that. It lacks operands if there are not enough words. -/
def read (address : Nat) (w : Word) (rest : List Word) : Instruction :=
  ⟨address, Header.decode w, rest.take (Header.decode w).operandCount⟩

/-- The instructions that words are, where the first word has the given address,
    and the first `pending` words are operands of an instruction before. -/
def ofWords (address : Nat) : (pending : Nat) → List Word → List Instruction
  | _, [] => []
  | pending + 1, _ :: rest => ofWords (address + 1) pending rest
  | 0, w :: rest =>
    read address w rest :: ofWords (address + 1) (Header.decode w).operandCount rest

end Instruction

namespace Program

/-- The words of a program. -/
def words (p : Program) : List Word :=
  p.cells.map Cell.word

/-- The number of words of a program. -/
def size (p : Program) : Nat :=
  p.cells.length

theorem length_words (p : Program) : p.words.length = p.size :=
  List.length_map _

/-- The number of the line that a word comes from. -/
def lineOf? (p : Program) (address : Nat) : Option Nat :=
  p.cells[address]?.map Cell.line

/-- The instructions that a program is. -/
def instructions (p : Program) : List Instruction :=
  Instruction.ofWords 0 0 p.words

end Program

end GridBots
