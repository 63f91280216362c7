import GridBots.Header
import GridBots.Machine.Error
import GridBots.Memory

/-!
# Steps of the machine

The machine has a memory, a stack of words, and the address of the instruction
that comes next. A *step* executes one instruction. First its operands are read,
in their order, whatever the instruction does with them: an immediate operand is
the word after the header, any other the word at the address which that is. An
operand that is not there counts as zero. Then the instruction acts (`execute`),
and the machine goes on after it, or where it is told to.

The machine ends when it executes an instruction for that, and also when it is
to go on outside of memory. It fails when an instruction cannot be executed; the
memory is then as it was before, and so is the stack, but for a word that the
instruction has popped.
-/

namespace GridBots.Machine

/-- The state of the machine between two instructions. -/
structure Config where
  memory : Memory
  /-- The stack, its top first. -/
  stack : List Word
  /-- The address of the instruction that comes next. -/
  address : Nat
  deriving DecidableEq

/-- What a step comes to. -/
inductive Step
  /-- The machine goes on. If the instruction is for watching the machine, what
      is to be `shown?` is the state it was in. -/
  | next (c : Config) (shown? : Option Config)
  /-- The machine has ended. -/
  | ended (c : Config)
  /-- The instruction cannot be executed. -/
  | failed (e : ExecutionError) (c : Config)
  deriving DecidableEq

/-- The opcode with a number, if instructions with it can be executed. -/
def executable? (n : Nat) : Option Opcode :=
  (Opcode.ofValue? n).filter (· ≠ .label)

/-- The operand with an index of the instruction at an address. -/
def operand (m : Memory) (address : Nat) (op : Opcode) (h : Header) (index : Nat) :
    Except ExecutionError Word :=
  match m.read (address + 1 + index) with
  | none => .error (.outOfBounds address op (Int32.ofNat (address + 1 + index)))
  | some raw =>
    if h.isImmediate index then .ok raw
    else match m.fetch? raw with
      | none => .error (.outOfBounds address op raw)
      | some w => .ok w

/-- The operands of the instruction at an address. -/
def operands (m : Memory) (address : Nat) (op : Opcode) (h : Header) :
    Except ExecutionError (List Word) :=
  (List.range h.operandCount).mapM (operand m address op h)

namespace Config

/-- Goes on at an address. -/
def goto (c : Config) (address : Nat) : Step :=
  .next { c with address := address } none

/-- Pushes a word, and goes on at an address. -/
def push (c : Config) (capacity : Nat) (op : Opcode) (w : Word) (next : Nat) : Step :=
  if c.stack.length < capacity then .next { c with stack := w :: c.stack, address := next } none
  else .failed (.stackOverflow c.address op) c

/-- Pops a word, and goes on as the word says. -/
def pop (c : Config) (op : Opcode) (act : Word → Config → Step) : Step :=
  match c.stack with
  | [] => .failed (.stackUnderflow c.address op) c
  | w :: stack => act w { c with stack := stack }

/-- Stores a word at the address that a word stands for, and goes on at an address. -/
def store (c : Config) (op : Opcode) (target w : Word) (next : Nat) : Step :=
  match Memory.locate? target with
  | none => .failed (.outOfBounds c.address op target) c
  | some a => .next { c with memory := c.memory.write a w, address := next } none

end Config

/-- Executes an instruction with the given operands, where the stack has room for
    `capacity` words. -/
def execute (capacity : Nat) (op : Opcode) (h : Header) (args : List Word) (c : Config) : Step :=
  let next := c.address + h.width
  let first := args.getD 0 0
  let second := args.getD 1 0
  match op with
  | .halt => .ended c
  | .add => c.push capacity op (first + second) next
  | .sub => c.push capacity op (first - second) next
  | .set =>
    match h.operandCount with
    | 1 => c.pop op fun w c => c.store op first w next
    | 2 => c.store op first second next
    | _ => c.goto next
  | .get => c.pop op fun target c =>
    match c.memory.fetch? target with
    | none => .failed (.outOfBounds c.address op target) c
    | some w => c.push capacity op w next
  | .push => c.push capacity op first next
  | .jump =>
    match first.address? with
    | none => .failed (.outOfBounds c.address op first) c
    | some a => c.goto a
  | .branch => c.pop op fun w c =>
    if w ≠ 0 then c.goto next
    else match ((next : Int) + first.toInt).toNat? with
      | none => .failed (.outOfBounds c.address op first) c
      | some a => c.goto a
  -- Labels are for the assembler, and `step` executes none.
  | .label => c.goto next
  | .equal => c.push capacity op (Word.ofBool (first = second)) next
  | .greater => c.push capacity op (Word.ofBool (second < first)) next
  | .lesser => c.push capacity op (Word.ofBool (first < second)) next
  | .greaterEqual => c.push capacity op (Word.ofBool (second ≤ first)) next
  | .lesserEqual => c.push capacity op (Word.ofBool (first ≤ second)) next
  | .debug => .next { c with address := next } (some c)

/-- Executes the instruction that comes next, which is the word `w` with the header `h`. -/
def executeWord (capacity : Nat) (w : Word) (h : Header) (c : Config) : Step :=
  match executable? h.opcode with
  | none => .failed (.unknownOpcode c.address w) c
  | some op =>
    match operands c.memory c.address op h with
    | .error e => .failed e c
    | .ok args => execute capacity op h args c

/-- Executes the instruction that comes next. -/
def step (capacity : Nat) (c : Config) : Step :=
  match c.memory.read c.address with
  | none => .ended c
  | some w => executeWord capacity w (Header.decode w) c

theorem executable?_eq_some_iff {n : Nat} {op : Opcode} :
    executable? n = some op ↔ op.value = n ∧ op ≠ .label := by
  rw [executable?, Option.filter_eq_some_iff, decide_eq_true_eq]
  refine and_congr_left fun _ => ⟨Opcode.value_ofValue?, fun h => ?_⟩
  rw [← h, Opcode.ofValue?_value]

end GridBots.Machine
