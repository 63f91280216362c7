import GridBots.World
import Mathlib.Data.List.Forall2

/-!
# Turns of bots

In a step of a world, every bot has its *turn*: its program runs for one tick, and then the bot
moves as it can (`Bot.turn`). All turns are taken on the same machine, one after the other, and
moves are made after the last tick only. Still, a step comes to the same as the turns of the
bots, each by itself (`World.step_eq`).

The reason is that a tick begins with an empty stack, and so depends on the machine it is run
on by the room on its stack only, and not at all on who watches (`Machine.tick_eq`). Whoever
watches is shown the same states; `Machine.record` is the one who writes them down.
-/

namespace GridBots

namespace Machine

variable {σ : Type} {capacity : Nat}

/-- Watches a run by writing down the states that are shown. -/
def record (shown : Config) (before : List Config) : List Config :=
  before ++ [shown]

/-- The state of whoever watches, after some states are shown. -/
def watchAll (watch : Config → σ → σ) (watcher : σ) (shown : List Config) : σ :=
  shown.foldl (fun watcher c => watch c watcher) watcher

theorem watchAll_append (watch : Config → σ → σ) (watcher : σ) (shown later : List Config) :
    watchAll watch watcher (shown ++ later) = watchAll watch (watchAll watch watcher shown) later :=
  List.foldl_append

theorem watchAll_record (before shown : List Config) :
    watchAll record before shown = before ++ shown := by
  induction shown generalizing before with
  | nil => exact (List.append_nil before).symm
  | cons c shown ih => exact (ih (before ++ [c])).trans (List.append_assoc _ _ _)

/-- A run is the same for all who watch it, and shows them the states that are recorded. -/
theorem run_eq (watch : Config → σ → σ) (watcher : σ) (fuel : Nat) (before : List Config)
    (c : Config) :
    run capacity watch fuel (watchAll watch watcher before) c =
      (run capacity record fuel before c).map fun r =>
        ⟨r.error?, r.final, watchAll watch watcher r.watcher⟩ := by
  induction fuel generalizing before c with
  | zero => rfl
  | succ fuel ih =>
    rw [run, run]
    split
    · exact ih before _
    · next shown _ => exact (congrArg (run capacity watch fuel · _)
        (watchAll_append watch watcher before [shown]).symm).trans (ih _ _)
    · rfl
    · rfl

/-- A tick depends neither on who watches nor on what the last tick has left on the stack. -/
theorem tick_eq (watch : Config → σ → σ) (watcher : σ) (fuel : Nat) (ctx : Context) (m : Memory) :
    tick fuel watch watcher ctx m =
      (tick fuel record [] (Context.new ctx.capacity) m).map fun t =>
        ⟨t.result, t.memory, t.context, watchAll watch watcher t.watcher⟩ := by
  have hrun : run ctx.capacity watch fuel watcher (start ctx m) = _ :=
    run_eq watch watcher fuel [] (start ctx m)
  rw [tick, tick]
  refine (congrArg (Option.map _) hrun).trans ?_
  rw [Option.map_map, Option.map_map]
  rfl

theorem capacity_of_tick {watch : Config → σ → σ} {watcher : σ} {fuel : Nat} {ctx : Context}
    {m : Memory} {t : Tick σ} (h : tick fuel watch watcher ctx m = some t) :
    t.context.capacity = ctx.capacity := by
  obtain ⟨r, _, rfl⟩ := Option.map_eq_some_iff.1 h
  rfl

end Machine

open Machine (record watchAll)

namespace Bot

/-- Runs the program of a bot for one tick, on a machine of its own. -/
def tickAlone (capacity fuel : Nat) (b : Bot) : Option (Ticked (List Machine.Config)) :=
  b.runTick fuel record [] (Machine.Context.new capacity)

/-- What a turn of a bot comes to. -/
structure Turn where
  bot : Bot
  outcome : Outcome
  /-- The states that are shown to whoever watches. -/
  traps : List Machine.Config

/-- A bot's turn, in which its program runs for one tick and the bot then moves as it can. -/
def turn (bounds : Bounds) (capacity fuel : Nat) (b : Bot) : Option Turn :=
  (b.tickAlone capacity fuel).map fun t =>
    let settled := World.settle bounds t.bot t.result
    ⟨settled.1, settled.2, t.watcher⟩

variable {σ : Type} {watch : Machine.Config → σ → σ} {watcher : σ} {fuel capacity : Nat} {b : Bot}

theorem runTick_eq (ctx : Machine.Context) :
    b.runTick fuel watch watcher ctx = (b.tickAlone ctx.capacity fuel).map fun t =>
      ⟨t.result, t.bot, t.context, watchAll watch watcher t.watcher⟩ := by
  rw [runTick, Machine.tick_eq, tickAlone, runTick, Option.map_map, Option.map_map]
  rfl

theorem capacity_of_tickAlone {t : Ticked (List Machine.Config)}
    (h : b.tickAlone capacity fuel = some t) : t.context.capacity = capacity := by
  obtain ⟨t', ht, rfl⟩ := Option.map_eq_some_iff.1 h
  exact Machine.capacity_of_tick ht

end Bot

/-! ## All turns of a step -/

section MapM

variable {α β γ : Type} {f : α → Option β} {l : List α} {l' : List β}

theorem mapM_option_map (f : α → Option β) (g : β → γ) (l : List α) :
    l.mapM (fun a => (f a).map g) = (l.mapM f).map (List.map g) := by
  induction l with
  | nil => rfl
  | cons a l ih =>
    rw [List.mapM_cons, List.mapM_cons, ih]
    cases f a with
    | none => rfl
    | some b => cases l.mapM f <;> rfl

theorem mapM_eq_some_iff :
    l.mapM f = some l' ↔ List.Forall₂ (fun a b => f a = some b) l l' := by
  induction l generalizing l' with
  | nil =>
    rw [List.forall₂_nil_left_iff]
    exact ⟨fun h => (Option.some.inj h).symm, fun h => congrArg some h.symm⟩
  | cons a l ih =>
    rw [List.mapM_cons]
    constructor
    · intro h
      obtain ⟨b, hb, h⟩ := Option.bind_eq_some_iff.1 h
      obtain ⟨bs, hbs, h⟩ := Option.bind_eq_some_iff.1 h
      cases h
      exact .cons hb (ih.1 hbs)
    · rintro (_ | ⟨hb, hbs⟩)
      exact Option.bind_eq_some_iff.2 ⟨_, hb, Option.bind_eq_some_iff.2 ⟨_, ih.2 hbs, rfl⟩⟩

theorem getElem?_of_forall₂ {R : α → β → Prop} (h : List.Forall₂ R l l') {i : Nat} {a : α}
    (ha : l[i]? = some a) : ∃ b, l'[i]? = some b ∧ R a b := by
  induction h generalizing i with
  | nil => simp at ha
  | cons hr _ ih =>
    cases i with
    | zero => exact ⟨_, rfl, Option.some.inj ha ▸ hr⟩
    | succ i => exact ih ha

end MapM

namespace World

variable {σ : Type} {watch : Machine.Config → σ → σ} {watcher : σ} {fuel : Nat}

/-- The ticks of bots on the same machine are those on machines of their own. -/
theorem runBots_eq (watcher : σ) (ctx : Machine.Context) (bots : List Bot) :
    runBots fuel watch watcher ctx bots =
      (bots.mapM (Bot.tickAlone ctx.capacity fuel)).map fun ticked =>
        (ticked.map fun t => (t.bot, t.result),
          watchAll watch watcher (ticked.flatMap Bot.Ticked.watcher)) := by
  induction bots generalizing watcher ctx with
  | nil => rfl
  | cons b bots ih =>
    rw [runBots, List.mapM_cons, Bot.runTick_eq]
    cases ht : b.tickAlone ctx.capacity fuel with
    | none => rfl
    | some t =>
      simp only [Option.map_some, Option.bind_eq_bind, Option.bind_some]
      rw [ih, Bot.capacity_of_tickAlone ht]
      cases bots.mapM (Bot.tickAlone ctx.capacity fuel) with
      | none => rfl
      | some ticked =>
        exact congrArg (fun x => some (_, x)) (Machine.watchAll_append _ _ _ _).symm

/-- A step of a world is made of the turns of its bots. -/
theorem step_eq (w : World) :
    w.step fuel watch watcher =
      (w.bots.mapM (Bot.turn w.bounds w.stackCapacity fuel)).map fun turns =>
        { report := ⟨w.tick, turns.map Bot.Turn.outcome⟩
          world := { w with bots := turns.map Bot.Turn.bot, tick := w.tick + 1 }
          watcher := watchAll watch watcher (turns.flatMap Bot.Turn.traps) } := by
  have hturns := mapM_option_map (Bot.tickAlone w.stackCapacity fuel) (fun t : Bot.Ticked _ =>
    (⟨(settle w.bounds t.bot t.result).1, (settle w.bounds t.bot t.result).2, t.watcher⟩ :
      Bot.Turn)) w.bots
  rw [step, runBots_eq]
  refine Eq.trans ?_ (congrArg (Option.map _) hturns).symm
  change Option.bind (Option.map _ (w.bots.mapM (Bot.tickAlone w.stackCapacity fuel))) _ = _
  cases w.bots.mapM (Bot.tickAlone w.stackCapacity fuel) with
  | none => rfl
  | some ticked =>
    simp only [Option.map_some, Option.bind_some, List.map_map, List.flatMap_map,
      Function.comp_def]

/-- The states that a step shows are those shown in the turns of the bots, in their order. -/
theorem step_record_eq (w : World) :
    w.step fuel record [] =
      (w.bots.mapM (Bot.turn w.bounds w.stackCapacity fuel)).map fun turns =>
        { report := ⟨w.tick, turns.map Bot.Turn.outcome⟩
          world := { w with bots := turns.map Bot.Turn.bot, tick := w.tick + 1 }
          watcher := turns.flatMap Bot.Turn.traps } := by
  rw [step_eq]
  simp only [Machine.watchAll_record, List.nil_append]

/-- A step comes to the same for all who watch it. -/
theorem step_eq_record (w : World) :
    w.step fuel watch watcher = (w.step fuel record []).map fun s =>
      { s with watcher := watchAll watch watcher s.watcher } := by
  rw [step_eq, step_record_eq, Option.map_map]
  rfl

end World

end GridBots
