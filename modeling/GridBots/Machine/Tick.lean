import GridBots.Grid
import GridBots.Machine.Step

/-!
# Ticks

Once per *tick*, the program in a memory is run from address zero on, with an
empty stack, and with all system registers zero at first. When it ends, the word
in the move register tells the direction in which it asks to be moved. When it
fails, what it has stored until then stays in memory.

A program need not end. So a run has a number of steps that it may take, its
*fuel*, and no result if these are not enough. More fuel than enough makes no
difference.

Whoever watches a run is shown states of the machine, and has a state of its
own to remember them by, which has no influence on the run.
-/

namespace GridBots.Machine

/-- What a machine that is used for one tick after the other has besides a memory. Operands are
    not a part of it: they are read anew for every instruction, and those that are not there
    count as zero, so that nothing of them is left for the next instruction. -/
structure Context where
  /-- The number of words the stack has room for. -/
  capacity : Nat
  /-- What the last tick has left on the stack, its top first. -/
  stack : List Word
  deriving DecidableEq, Repr

namespace Context

/-- The room on a stack, unless another is asked for. -/
def standardCapacity : Nat := 256

/-- An empty stack. -/
def new (capacity : Nat) : Context :=
  ⟨capacity, []⟩

/-- The stack after it is emptied. -/
def reset (ctx : Context) : Context :=
  new ctx.capacity

end Context

/-- What a run comes to. -/
structure Run (σ : Type) where
  /-- Why the run failed, if it did. -/
  error? : Option ExecutionError
  /-- The state of the machine at the end. -/
  final : Config
  /-- The state of whoever watches at the end. -/
  watcher : σ

/-- Runs the machine from a state on, in at most `fuel` steps. -/
def run {σ : Type} (capacity : Nat) (watch : Config → σ → σ) :
    (fuel : Nat) → σ → Config → Option (Run σ)
  | 0, _, _ => none
  | fuel + 1, watcher, c =>
    match step capacity c with
    | .next c none => run capacity watch fuel watcher c
    | .next c (some shown) => run capacity watch fuel (watch shown watcher) c
    | .ended c => some ⟨none, c, watcher⟩
    | .failed e c => some ⟨some e, c, watcher⟩

/-- More fuel than enough makes no difference. -/
theorem run_add {σ : Type} {capacity fuel : Nat} {watch : Config → σ → σ} {watcher : σ}
    {c : Config} {r : Run σ} (h : run capacity watch fuel watcher c = some r) (extra : Nat) :
    run capacity watch (fuel + extra) watcher c = some r := by
  induction fuel generalizing watcher c with
  | zero => exact nomatch h
  | succ fuel ih =>
    rw [Nat.add_right_comm]
    simp only [run] at h ⊢
    split at h
    · exact ih h
    · exact ih h
    · exact h
    · exact h

/-- The state of the machine at the start of a tick. -/
def start (ctx : Context) (m : Memory) : Config :=
  ⟨m.clearSystem, ctx.reset.stack, 0⟩

/-- The change of position that the program in a memory asks for. -/
def requested (m : Memory) : Delta :=
  Delta.ofRegister ((m.read Memory.moveRegister).getD 0)

/-- What a tick comes to. -/
structure Tick (σ : Type) where
  /-- The change of position that the program asks for, or why it failed. -/
  result : Except ExecutionError Delta
  memory : Memory
  context : Context
  /-- The state of whoever watches at the end. -/
  watcher : σ

/-- The tick that a run is. -/
def Run.toTick {σ : Type} (r : Run σ) (capacity : Nat) : Tick σ where
  result :=
    match r.error? with
    | none => .ok (requested r.final.memory)
    | some e => .error e
  memory := r.final.memory
  context := ⟨capacity, r.final.stack⟩
  watcher := r.watcher

/-- Runs the program in a memory for one tick. -/
def tick {σ : Type} (fuel : Nat) (watch : Config → σ → σ) (watcher : σ) (ctx : Context)
    (m : Memory) : Option (Tick σ) :=
  (run ctx.capacity watch fuel watcher (start ctx m)).map fun r => r.toTick ctx.capacity

end GridBots.Machine
