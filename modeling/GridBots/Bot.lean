import GridBots.Assembly.Program
import GridBots.Machine.Tick

/-!
# Bots

A bot has a memory of its own, with a program in it, and a position. In a tick
its program asks for a move. By itself the bot can move wherever there are
positions; the bounds of a world are kept by the world.
-/

namespace GridBots

/-- A bot. -/
structure Bot where
  memory : Memory
  position : Position
  deriving DecidableEq

/-- What a bot's tick comes to. -/
structure Bot.Ticked (σ : Type) where
  /-- The change of position that the program asks for, or why it failed. -/
  result : Except ExecutionError Delta
  bot : Bot
  context : Machine.Context
  /-- The state of whoever watches at the end. -/
  watcher : σ

namespace Bot

/-- A bot with a program at a position. -/
def new (p : Program) (position : Position) : Bot :=
  ⟨Memory.ofCode p.words, position⟩

/-- The bot with nothing in memory but a program. -/
def reload (b : Bot) (p : Program) : Bot :=
  { b with memory := Memory.ofCode p.words }

/-- The bot after a word is stored in its memory. -/
def poke (b : Bot) (a : Nat) (w : Word) : Bot :=
  { b with memory := b.memory.write a w }

/-- The bot at another position. -/
def moveTo (b : Bot) (position : Position) : Bot :=
  { b with position := position }

/-- The bot after a change of position, if that leads to a position. -/
def applyMove (b : Bot) (d : Delta) : Bot :=
  match b.position.offset? d with
  | none => b
  | some position => b.moveTo position

/-- Runs the program of a bot for one tick. The bot does not move. -/
def runTick {σ : Type} (fuel : Nat) (watch : Machine.Config → σ → σ) (watcher : σ)
    (ctx : Machine.Context) (b : Bot) : Option (Ticked σ) :=
  (Machine.tick fuel watch watcher ctx b.memory).map fun t =>
    { result := t.result
      bot := { b with memory := t.memory }
      context := t.context
      watcher := t.watcher }

/-- Runs the program of a bot for one tick, and moves the bot as it asks for. -/
def step {σ : Type} (fuel : Nat) (watch : Machine.Config → σ → σ) (watcher : σ)
    (ctx : Machine.Context) (b : Bot) : Option (Ticked σ) :=
  (b.runTick fuel watch watcher ctx).map fun t =>
    match t.result with
    | .ok d => { t with bot := t.bot.applyMove d }
    | .error _ => t

end Bot

end GridBots
