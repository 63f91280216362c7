import GridBots.Bot

/-!
# Worlds

A world has bounds, and bots in them, up to a number that it has room for. Bots
are known by the order in which they were added, from zero on.

In a *step* of the world, first the program of every bot runs for one tick, one
after the other, but none sees another's memory. Then the bots move as they have
asked for, if that leads neither out of bounds nor out of the range of words. A
bot whose program fails stays where it is, and the others go on.
-/

namespace GridBots

/-- Why something cannot be done in a world. -/
inductive WorldError
  /-- There is no room for one more bot. -/
  | tooManyBots
  /-- There is no bot with this number. -/
  | unknownBot (id : Nat)
  /-- A bot would be added out of bounds. -/
  | outOfBounds
  deriving DecidableEq, Repr

/-- The wording of an error. -/
def WorldError.message : WorldError → String
  | tooManyBots => "the world has no room for another bot"
  | unknownBot id => "no bot with id " ++ id.repr
  | outOfBounds => "position is outside the world"

/-- What a step of the world comes to for a bot. -/
inductive Outcome
  /-- The program has ended, and the bot has moved by what it asked for, which
      may be nothing. -/
  | moved (d : Delta)
  /-- The program has ended, but the bot cannot move as it asked for. -/
  | blocked (d : Delta)
  /-- The program has failed. -/
  | failed (e : ExecutionError)
  deriving DecidableEq, Repr

/-- Why the program failed, if it did. -/
def Outcome.error? : Outcome → Option ExecutionError
  | failed e => some e
  | _ => none

/-- What a step of the world comes to. -/
structure Report where
  /-- The number of steps before. -/
  tick : UInt64
  /-- The outcomes of the bots, in their order. -/
  outcomes : List Outcome
  deriving DecidableEq, Repr

namespace Report

/-- The outcome of a bot. -/
def outcome? (r : Report) (id : Nat) : Option Outcome :=
  r.outcomes[id]?

/-- The bots whose programs have failed, and why. -/
def failures (r : Report) : List (Nat × ExecutionError) :=
  r.outcomes.zipIdx.filterMap fun (outcome, id) => outcome.error?.map fun e => (id, e)

end Report

/-- A world. -/
structure World where
  bounds : Bounds
  /-- The number of bots there is room for. -/
  botCapacity : Nat
  /-- The number of words the stack of a machine has room for. -/
  stackCapacity : Nat
  bots : List Bot
  /-- The number of steps so far, modulo 2⁶⁴. -/
  tick : UInt64
  deriving DecidableEq

/-- What a step of the world comes to, and the world after it. -/
structure World.Stepped (σ : Type) where
  report : Report
  world : World
  /-- The state of whoever watches at the end. -/
  watcher : σ

namespace World

/-- A world without bots. -/
def new (bounds : Bounds) (botCapacity stackCapacity : Nat) : World :=
  ⟨bounds, botCapacity, stackCapacity, [], 0⟩

/-- Adds a bot, and tells its number. -/
def addBot (w : World) (p : Program) (position : Position) : Except WorldError (Nat × World) :=
  if position ∉ w.bounds then .error .outOfBounds
  else if w.botCapacity ≤ w.bots.length then .error .tooManyBots
  else .ok (w.bots.length, { w with bots := w.bots ++ [Bot.new p position] })

/-- The bot with a number. -/
def bot (w : World) (id : Nat) : Except WorldError Bot :=
  match w.bots[id]? with
  | none => .error (.unknownBot id)
  | some b => .ok b

/-- The world after the bot with a number is changed. -/
def editBot (w : World) (id : Nat) (edit : Bot → Bot) : Except WorldError World := do
  let b ← w.bot id
  .ok { w with bots := w.bots.set id (edit b) }

/-- Runs the programs of bots, one after the other on the same machine. -/
def runBots {σ : Type} (fuel : Nat) (watch : Machine.Config → σ → σ) :
    σ → Machine.Context → List Bot → Option (List (Bot × Except ExecutionError Delta) × σ)
  | watcher, _, [] => some ([], watcher)
  | watcher, ctx, b :: rest => do
    let t ← b.runTick fuel watch watcher ctx
    let (ticked, watcher) ← runBots fuel watch t.watcher t.context rest
    some ((t.bot, t.result) :: ticked, watcher)

/-- Moves a bot as its program has asked for, if it can. -/
def settle (bounds : Bounds) (b : Bot) : Except ExecutionError Delta → Bot × Outcome
  | .error e => (b, .failed e)
  | .ok d =>
    if d.isZero then (b, .moved d)
    else match (b.position.offset? d).filter (· ∈ bounds) with
      | none => (b, .blocked d)
      | some position => (b.moveTo position, .moved d)

/-- Advances the world by one step. -/
def step {σ : Type} (fuel : Nat) (watch : Machine.Config → σ → σ) (watcher : σ) (w : World) :
    Option (Stepped σ) := do
  let (ticked, watcher) ← runBots fuel watch watcher (Machine.Context.new w.stackCapacity) w.bots
  let settled := ticked.map fun (b, result) => settle w.bounds b result
  some
    { report := ⟨w.tick, settled.map Prod.snd⟩
      world := { w with bots := settled.map Prod.fst, tick := w.tick + 1 }
      watcher := watcher }

end World

end GridBots
