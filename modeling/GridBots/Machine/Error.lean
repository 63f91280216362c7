import GridBots.Opcode
import GridBots.Word

/-!
# Execution errors

An instruction that cannot be executed ends the tick with an error, which tells
the address of the instruction, and what is wrong with it.
-/

namespace GridBots

/-- Why an instruction cannot be executed. -/
inductive ExecutionError
  /-- The word is not the header of an instruction, or of one that is for the
      assembler only. -/
  | unknownOpcode (address : Nat) (word : Word)
  /-- There is nothing on the stack to be popped. -/
  | stackUnderflow (address : Nat) (op : Opcode)
  /-- There is no room on the stack for what is pushed. -/
  | stackOverflow (address : Nat) (op : Opcode)
  /-- The word `target` is not an address, or not one that can be used here. -/
  | outOfBounds (address : Nat) (op : Opcode) (target : Word)
  deriving DecidableEq, Repr

namespace ExecutionError

/-- The address of the instruction. -/
def address : ExecutionError → Nat
  | unknownOpcode a _ => a
  | stackUnderflow a _ => a
  | stackOverflow a _ => a
  | outOfBounds a _ _ => a

/-- The opcode of the instruction, if it has one. -/
def opcode? : ExecutionError → Option Opcode
  | unknownOpcode _ _ => none
  | stackUnderflow _ op => some op
  | stackOverflow _ op => some op
  | outOfBounds _ op _ => some op

/-- The wording of an error. -/
def message : ExecutionError → String
  | unknownOpcode a w =>
    "word " ++ w.toInt.repr ++ " at address " ++ a.repr ++ " is not an executable opcode"
  | stackUnderflow a op => op.name ++ " at address " ++ a.repr ++ " popped an empty stack"
  | stackOverflow a op => op.name ++ " at address " ++ a.repr ++ " overflowed the stack"
  | outOfBounds a op target =>
    op.name ++ " at address " ++ a.repr ++ " accessed out of bounds memory at " ++
      target.toInt.repr

end ExecutionError

end GridBots
