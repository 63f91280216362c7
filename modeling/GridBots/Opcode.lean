import GridBots.Text

/-!
# Opcodes

What an instruction does. Every opcode has a number, by which it is known to the
machine, and one or more spellings, by which it is written in a program. The
spellings are read without regard to case.

* `ofValue?_value`, `value_ofValue?`: opcodes are numbered from zero on, without gaps;
* `ofMnemonic?_mnemonic`: an opcode is read back from its mnemonic.
-/

namespace GridBots

/-- What an instruction does. -/
inductive Opcode
  /-- Ends the tick. -/
  | halt
  /-- Pushes the sum of two operands. -/
  | add
  /-- Pushes the first operand minus the second. -/
  | sub
  /-- With one operand, pops a word and stores it at the operand. With two, stores
      the second at the first. -/
  | set
  /-- Pops an address and pushes the word stored there. -/
  | get
  /-- Pushes an operand. -/
  | push
  /-- Goes on at the address that is the operand. -/
  | jump
  /-- Pops a word and, if it is zero, skips as many words as the operand says. -/
  | branch
  /-- Names an address while a program is assembled; never executed. -/
  | label
  /-- Compares two operands, and pushes one if they are equal and zero otherwise. -/
  | equal
  /-- Likewise, if the first is greater than the second. -/
  | greater
  /-- Likewise, if the first is less than the second. -/
  | lesser
  /-- Likewise, if the first is not less than the second. -/
  | greaterEqual
  /-- Likewise, if the first is not greater than the second. -/
  | lesserEqual
  /-- Shows the stack and the memory to whoever watches, and goes on. -/
  | debug
  deriving DecidableEq, Repr

namespace Opcode

/-- All opcodes, in the order of their numbers. -/
def all : List Opcode :=
  [halt, add, sub, set, get, push, jump, branch, label, equal, greater, lesser, greaterEqual,
    lesserEqual, debug]

/-- The number of an opcode. -/
def value : Opcode → Nat
  | halt => 0
  | add => 1
  | sub => 2
  | set => 3
  | get => 4
  | push => 5
  | jump => 6
  | branch => 7
  | label => 8
  | equal => 9
  | greater => 10
  | lesser => 11
  | greaterEqual => 12
  | lesserEqual => 13
  | debug => 14

/-- The opcode with a number, if there is one. -/
def ofValue? (n : Nat) : Option Opcode :=
  all[n]?

/-- The name of an opcode in messages. -/
def name : Opcode → String
  | halt => "End"
  | add => "Add"
  | sub => "Sub"
  | set => "Set"
  | get => "Get"
  | push => "Push"
  | jump => "Jump"
  | branch => "If"
  | label => "Label"
  | equal => "Equal"
  | greater => "Greater"
  | lesser => "Lesser"
  | greaterEqual => "GreaterEqual"
  | lesserEqual => "LesserEqual"
  | debug => "Debug"

/-- The full spelling of an opcode. -/
def mnemonic : Opcode → String
  | halt => "END"
  | add => "ADD"
  | sub => "SUB"
  | set => "SET"
  | get => "GET"
  | push => "PUSH"
  | jump => "JUMP"
  | branch => "IF"
  | label => "LABEL"
  | equal => "EQUAL"
  | greater => "GREATER"
  | lesser => "LESSER"
  | greaterEqual => "GREATEREQUAL"
  | lesserEqual => "LESSEREQUAL"
  | debug => "DEBUG"

/-- The short spellings, which only comparisons have. -/
def abbreviations : List (String × Opcode) :=
  [("EQ", equal), ("GT", greater), ("LT", lesser), ("GE", greaterEqual), ("LE", lesserEqual)]

/-- All spellings in upper case, each with its opcode. -/
def spellings : List (String × Opcode) :=
  all.map (fun op => (op.mnemonic, op)) ++ abbreviations

/-- The opcode that a text spells, in any case. -/
def ofMnemonic? (text : String) : Option Opcode :=
  spellings.lookup (Text.upperCase text)

theorem ofValue?_value (op : Opcode) : ofValue? op.value = some op := by
  cases op <;> rfl

theorem value_ofValue? {n : Nat} {op : Opcode} (h : ofValue? n = some op) : op.value = n := by
  match n with
  | 0 | 1 | 2 | 3 | 4 | 5 | 6 | 7 | 8 | 9 | 10 | 11 | 12 | 13 | 14 => cases h; rfl
  | n + 15 => cases h

theorem ofValue?_eq_none_iff {n : Nat} : ofValue? n = none ↔ 15 ≤ n :=
  List.getElem?_eq_none_iff

theorem value_lt (op : Opcode) : op.value < 15 := by
  cases op <;> decide

theorem ofMnemonic?_mnemonic (op : Opcode) : ofMnemonic? op.mnemonic = some op := by
  cases op <;> decide

end Opcode

end GridBots
