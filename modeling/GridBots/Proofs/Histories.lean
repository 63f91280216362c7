import GridBots.Proofs.Turns

/-!
# Histories of worlds

What is done to a world is a sequence of *operations*: bots are added, one of them is changed
by itself, or the world makes a step (`World.Operation`). Each of them has an *answer*, and
operations with their answers are the *events* of a history (`World.run`).

What an operation can do is listed once (`World.Effect`). If it is refused, it changes nothing;
and it does to every bot what `Bot.follow?` says, which depends on the bot only
(`Effect.follow?_eq`, and `foldlM_follow?_of_run` for a whole history). Bots are never taken out,
so that they keep their numbers (`range_length_of_run`).
-/

namespace GridBots

open Machine (record)

/-- A change of a bot by itself. -/
inductive Bot.Edit
  /-- A word is stored in its memory. -/
  | poke (address : Nat) (w : Word)
  /-- It is put at a position. -/
  | moveTo (position : Position)
  /-- It is moved, if that leads to a position. -/
  | applyMove (d : Delta)
  /-- Its memory is cleared, and a program is loaded into it. -/
  | reload (p : Program)
  deriving DecidableEq

/-- The bot after a change. -/
def Bot.Edit.apply : Edit → Bot → Bot
  | poke a w, b => b.poke a w
  | moveTo position, b => b.moveTo position
  | applyMove d, b => b.applyMove d
  | reload p, b => b.reload p

namespace World

/-- Something that is done to a world. -/
inductive Operation
  /-- A bot with a program is added at a position. -/
  | add (p : Program) (position : Position)
  /-- The bot with a number is changed. -/
  | edit (id : Nat) (e : Bot.Edit)
  /-- The world makes a step, in which programs may execute as many instructions as said. -/
  | step (fuel : Nat)
  deriving DecidableEq

/-- What comes of an operation. -/
inductive Answer
  /-- A bot has been added, and has got a number. -/
  | added (id : Nat)
  /-- The operation cannot be done. -/
  | refused (e : WorldError)
  /-- A bot has been changed. -/
  | edited
  /-- The world has made a step, in which some states of machines have been shown. -/
  | stepped (r : Report) (traps : List Machine.Config)
  deriving DecidableEq

/-- An operation, and what has come of it. -/
structure Event where
  operation : Operation
  answer : Answer
  deriving DecidableEq

/-- What comes of an operation, and the world after it. There is no answer if a step of the
    world does not end. -/
def perform (w : World) : Operation → Option (Answer × World)
  | .add p position =>
    match w.addBot p position with
    | .ok (id, w') => some (.added id, w')
    | .error e => some (.refused e, w)
  | .edit id e =>
    match w.editBot id e.apply with
    | .ok w' => some (.edited, w')
    | .error e => some (.refused e, w)
  | .step fuel => (w.step fuel record []).map fun s => (.stepped s.report s.watcher, s.world)

/-- What comes of operations one after the other, and the world after them. -/
def run (w : World) : List Operation → Option (List Event × World)
  | [] => some ([], w)
  | op :: ops => do
    let (answer, w) ← w.perform op
    let (events, w) ← w.run ops
    some (⟨op, answer⟩ :: events, w)

/-- The number that a bot has got in an event, if one has been added. -/
def Event.added? (e : Event) : Option Nat :=
  match e.answer with
  | .added id => some id
  | _ => none

/-- The outcome that an event has had for the bot with a number, if it was a step. -/
def Event.outcome? (id : Nat) (e : Event) : Option Outcome :=
  match e.answer with
  | .stepped r _ => r.outcome? id
  | _ => none

end World

/-- What an operation makes of the bot with the number `id`, in a world with given bounds and
    stacks. -/
def Bot.follow? (bounds : Bounds) (capacity id : Nat) (b : Bot) : World.Operation → Option Bot
  | .add _ _ => some b
  | .edit i e => some (if i = id then e.apply b else b)
  | .step fuel => (b.turn bounds capacity fuel).map Turn.bot

namespace World

variable {w w₁ w' : World} {op : Operation} {ops : List Operation} {answer : Answer}
  {events before after : List Event} {id : Nat} {b : Bot}

/-! ## Single operations -/

/-- What an operation does to a world, with its answer. -/
inductive Effect (w : World) : Operation → Answer → World → Prop
  | added (p : Program) (position : Position) :
      position ∈ w.bounds → w.bots.length < w.botCapacity →
        Effect w (.add p position) (.added w.bots.length)
          { w with bots := w.bots ++ [Bot.new p position] }
  | outOfBounds (p : Program) (position : Position) :
      position ∉ w.bounds → Effect w (.add p position) (.refused .outOfBounds) w
  | tooManyBots (p : Program) (position : Position) :
      position ∈ w.bounds → w.botCapacity ≤ w.bots.length →
        Effect w (.add p position) (.refused .tooManyBots) w
  | edited (id : Nat) (e : Bot.Edit) (b : Bot) :
      w.bots[id]? = some b →
        Effect w (.edit id e) .edited { w with bots := w.bots.set id (e.apply b) }
  | unknownBot (id : Nat) (e : Bot.Edit) :
      w.bots[id]? = none → Effect w (.edit id e) (.refused (.unknownBot id)) w
  | stepped (fuel : Nat) (turns : List Bot.Turn) :
      List.Forall₂ (fun b t => b.turn w.bounds w.stackCapacity fuel = some t) w.bots turns →
        Effect w (.step fuel)
          (.stepped ⟨w.tick, turns.map Bot.Turn.outcome⟩ (turns.flatMap Bot.Turn.traps))
          { w with bots := turns.map Bot.Turn.bot, tick := w.tick + 1 }

theorem effect_of_perform (h : w.perform op = some (answer, w')) : Effect w op answer w' := by
  cases op with
  | add p position =>
    rw [perform, addBot] at h
    by_cases hposition : position ∉ w.bounds
    · rw [if_pos hposition] at h
      cases h
      exact .outOfBounds p position hposition
    rw [if_neg hposition] at h
    by_cases hcapacity : w.botCapacity ≤ w.bots.length
    · rw [if_pos hcapacity] at h
      cases h
      exact .tooManyBots p position (not_not.1 hposition) hcapacity
    · rw [if_neg hcapacity] at h
      cases h
      exact .added p position (not_not.1 hposition) (Nat.not_le.1 hcapacity)
  | edit id e =>
    rw [perform, editBot, bot] at h
    cases hb : w.bots[id]? with
    | none =>
      rw [hb] at h
      cases h
      exact .unknownBot id e hb
    | some b =>
      rw [hb] at h
      cases h
      exact .edited id e b hb
  | step fuel =>
    obtain ⟨s, hs, h⟩ := Option.map_eq_some_iff.1 h
    rw [step_record_eq] at hs
    obtain ⟨turns, hturns, rfl⟩ := Option.map_eq_some_iff.1 hs
    cases h
    exact .stepped fuel turns (mapM_eq_some_iff.1 hturns)

theorem perform_of_effect (h : Effect w op answer w') : w.perform op = some (answer, w') := by
  cases h with
  | added p position hposition hcapacity =>
    rw [perform, addBot, if_neg (not_not.2 hposition), if_neg (Nat.not_le.2 hcapacity)]
  | outOfBounds p position hposition => rw [perform, addBot, if_pos hposition]
  | tooManyBots p position hposition hcapacity =>
    rw [perform, addBot, if_neg (not_not.2 hposition), if_pos hcapacity]
  | edited id e b hb =>
    rw [perform, editBot, bot, hb]
    rfl
  | unknownBot id e hb =>
    rw [perform, editBot, bot, hb]
    rfl
  | stepped fuel turns hturns =>
    rw [perform, step_record_eq, mapM_eq_some_iff.2 hturns]
    rfl

/-- Operations change neither the bounds of a world, nor for how much there is room in it. -/
theorem Effect.frame (h : Effect w op answer w') :
    w'.bounds = w.bounds ∧ w'.botCapacity = w.botCapacity ∧
      w'.stackCapacity = w.stackCapacity := by
  cases h <;> exact ⟨rfl, rfl, rfl⟩

/-- The bots have the numbers from zero on, and one that is added has the next. -/
theorem Effect.range_length (h : Effect w op answer w') :
    List.range w'.bots.length =
      List.range w.bots.length ++ [(⟨op, answer⟩ : Event)].filterMap Event.added? := by
  cases h with
  | added p position hposition hcapacity =>
    change List.range (w.bots ++ [_]).length = _
    rw [List.length_append, List.length_singleton, List.range_succ]
    rfl
  | outOfBounds p position hposition => exact (List.append_nil _).symm
  | tooManyBots p position hposition hcapacity => exact (List.append_nil _).symm
  | edited id e b hb =>
    change List.range (w.bots.set id _).length = _
    rw [List.length_set]
    exact (List.append_nil _).symm
  | unknownBot id e hb => exact (List.append_nil _).symm
  | stepped fuel turns hturns =>
    change List.range (turns.map Bot.Turn.bot).length = _
    rw [List.length_map, ← hturns.length_eq]
    exact (List.append_nil _).symm

theorem Effect.follow?_eq (h : Effect w op answer w') (hb : w.bots[id]? = some b) :
    ∃ b', b.follow? w.bounds w.stackCapacity id op = some b' ∧ w'.bots[id]? = some b' := by
  cases h with
  | added p position hposition hcapacity =>
    exact ⟨b, rfl, List.getElem?_append_left (List.getElem?_eq_some_iff.1 hb).1 ▸ hb⟩
  | outOfBounds p position hposition => exact ⟨b, rfl, hb⟩
  | tooManyBots p position hposition hcapacity => exact ⟨b, rfl, hb⟩
  | edited i e b' hb' =>
    refine ⟨_, rfl, ?_⟩
    change (w.bots.set i _)[id]? = _
    split
    · next hi =>
      subst hi
      cases Option.some.inj (hb.symm.trans hb')
      exact List.getElem?_set_self (List.getElem?_eq_some_iff.1 hb).1
    · next hi => rw [List.getElem?_set_ne hi, hb]
  | unknownBot i e hi =>
    refine ⟨b, congrArg some (if_neg ?_), hb⟩
    rintro rfl
    exact nomatch hb.symm.trans hi
  | stepped fuel turns hturns =>
    obtain ⟨t, ht, hturn⟩ := getElem?_of_forall₂ hturns hb
    exact ⟨t.bot, congrArg (Option.map Bot.Turn.bot) hturn,
      (List.getElem?_map ..).trans (congrArg (Option.map Bot.Turn.bot) ht)⟩

theorem Effect.outcome?_eq_none (h : Effect w op answer w') (hid : w.bots.length ≤ id) :
    Event.outcome? id ⟨op, answer⟩ = none := by
  cases h with
  | stepped fuel turns hturns =>
    refine List.getElem?_eq_none ?_
    rw [List.length_map, ← hturns.length_eq]
    exact hid
  | _ => rfl

/-! ## Histories -/

theorem run_cons_eq_some :
    w.run (op :: ops) = some (events, w') ↔
      ∃ answer w₁ later, w.perform op = some (answer, w₁) ∧ w₁.run ops = some (later, w') ∧
        ⟨op, answer⟩ :: later = events := by
  constructor
  · intro h
    obtain ⟨⟨answer, w₁⟩, hop, h⟩ := Option.bind_eq_some_iff.1 h
    obtain ⟨⟨later, w₂⟩, hops, h⟩ := Option.bind_eq_some_iff.1 h
    cases h
    exact ⟨answer, w₁, later, hop, hops, rfl⟩
  · rintro ⟨answer, w₁, later, hop, hops, rfl⟩
    exact Option.bind_eq_some_iff.2
      ⟨(answer, w₁), hop, Option.bind_eq_some_iff.2 ⟨(later, w'), hops, rfl⟩⟩

/-- A history can be divided after every event. -/
theorem exists_run_of_append (h : w.run ops = some (before ++ after, w')) :
    ∃ w₁, w.run (before.map Event.operation) = some (before, w₁) ∧
      w₁.run (after.map Event.operation) = some (after, w') := by
  induction before generalizing w ops with
  | nil =>
    refine ⟨w, rfl, ?_⟩
    induction ops generalizing w after with
    | nil => cases h; rfl
    | cons op ops ih =>
      obtain ⟨answer, w₁, later, hop, hops, rfl⟩ := run_cons_eq_some.1 h
      exact run_cons_eq_some.2 ⟨answer, w₁, later, hop, ih hops, rfl⟩
  | cons e before ih =>
    cases ops with
    | nil => exact nomatch h
    | cons op ops =>
      obtain ⟨answer, w₂, later, hop, hops, heq⟩ := run_cons_eq_some.1 h
      cases heq
      obtain ⟨w₁, hbefore, hafter⟩ := ih hops
      exact ⟨w₁, run_cons_eq_some.2 ⟨answer, w₂, before, hop, hbefore, rfl⟩, hafter⟩

/-- What every operation preserves is preserved in a history. -/
theorem invariant_of_run {P : World → Prop} (h : w.run ops = some (events, w'))
    (hstep : ∀ op ∈ ops, ∀ answer v v', Effect v op answer v' → P v → P v') (hw : P w) : P w' := by
  induction ops generalizing w events with
  | nil => cases h; exact hw
  | cons op ops ih =>
    obtain ⟨answer, w₁, later, hop, hops, rfl⟩ := run_cons_eq_some.1 h
    exact ih hops (fun op' hop' => hstep op' (List.mem_cons_of_mem op hop'))
      (hstep op List.mem_cons_self answer w w₁ (effect_of_perform hop) hw)

theorem frame_of_run (h : w.run ops = some (events, w')) :
    w'.bounds = w.bounds ∧ w'.botCapacity = w.botCapacity ∧
      w'.stackCapacity = w.stackCapacity := by
  refine invariant_of_run (P := fun v => v.bounds = w.bounds ∧ v.botCapacity = w.botCapacity ∧
    v.stackCapacity = w.stackCapacity) h (fun op _ answer v v' heffect hv => ?_) ⟨rfl, rfl, rfl⟩
  obtain ⟨hbounds, hbot, hstack⟩ := heffect.frame
  exact ⟨hbounds.trans hv.1, hbot.trans hv.2.1, hstack.trans hv.2.2⟩

theorem range_length_of_run (h : w.run ops = some (events, w')) :
    List.range w'.bots.length = List.range w.bots.length ++ events.filterMap Event.added? := by
  induction ops generalizing w events with
  | nil => cases h; exact (List.append_nil _).symm
  | cons op ops ih =>
    obtain ⟨answer, w₁, later, hop, hops, rfl⟩ := run_cons_eq_some.1 h
    rw [ih hops, (effect_of_perform hop).range_length, List.append_assoc, ← List.filterMap_append]
    rfl

/-- Bots get the numbers from zero on, one after the other. -/
theorem added_of_run_new {bounds : Bounds} {botCapacity stackCapacity : Nat}
    (h : (new bounds botCapacity stackCapacity).run ops = some (events, w)) :
    events.filterMap Event.added? = List.range w.bots.length :=
  (range_length_of_run h).symm

theorem length_le_of_run (h : w.run ops = some (events, w')) : w.bots.length ≤ w'.bots.length := by
  have hlength := congrArg List.length (range_length_of_run h)
  rw [List.length_append, List.length_range, List.length_range] at hlength
  omega

/-- A bot that is not there yet has no outcomes. -/
theorem outcomes_eq_nil_of_run (h : w.run ops = some (events, w')) (hid : w'.bots.length ≤ id) :
    events.filterMap (Event.outcome? id) = [] := by
  induction ops generalizing w events with
  | nil => cases h; rfl
  | cons op ops ih =>
    obtain ⟨answer, w₁, later, hop, hops, rfl⟩ := run_cons_eq_some.1 h
    have hle := Nat.le_trans (length_le_of_run h) hid
    rw [List.filterMap_cons_none ((effect_of_perform hop).outcome?_eq_none hle)]
    exact ih hops

/-- A bot in a world that was new has been added. -/
theorem exists_added {bounds : Bounds} {botCapacity stackCapacity : Nat}
    (h : (new bounds botCapacity stackCapacity).run ops = some (events, w))
    (hid : id < w.bots.length) :
    ∃ before op after, events = before ++ ⟨op, .added id⟩ :: after := by
  have hmem : id ∈ events.filterMap Event.added? := by
    rw [added_of_run_new h]
    exact List.mem_range.2 hid
  obtain ⟨⟨op, answer⟩, he, hadded⟩ := List.mem_filterMap.1 hmem
  obtain ⟨before, after, hsplit⟩ := List.append_of_mem he
  cases answer with
  | added i => cases hadded; exact ⟨before, op, after, hsplit⟩
  | _ => cases hadded

/-- When a bot has been added, the numbers below its own had been given before. -/
theorem exists_run_of_added (h : w.run ops = some (before ++ ⟨op, .added id⟩ :: after, w')) :
    ∃ p position w₁, op = .add p position ∧ position ∈ w.bounds ∧
      w.run (before.map Event.operation) = some (before, w₁) ∧ w₁.bots.length = id ∧
      World.run { w₁ with bots := w₁.bots ++ [Bot.new p position] }
        (after.map Event.operation) = some (after, w') := by
  obtain ⟨w₁, hbefore, hafter⟩ := exists_run_of_append h
  obtain ⟨answer, w₂, later, hop, hlater, heq⟩ := run_cons_eq_some.1 hafter
  cases heq
  cases effect_of_perform hop with
  | added p position hposition hcapacity =>
    rw [(frame_of_run hbefore).1] at hposition
    exact ⟨p, position, w₁, rfl, hposition, hbefore, rfl, hlater⟩

theorem foldlM_follow?_of_run (h : w.run ops = some (events, w')) (hb : w.bots[id]? = some b) :
    ∃ b', ops.foldlM (Bot.follow? w.bounds w.stackCapacity id) b = some b' ∧
      w'.bots[id]? = some b' := by
  induction ops generalizing w events b with
  | nil => cases h; exact ⟨b, rfl, hb⟩
  | cons op ops ih =>
    obtain ⟨answer, w₁, later, hop, hops, rfl⟩ := run_cons_eq_some.1 h
    have heffect := effect_of_perform hop
    obtain ⟨b₁, hfollow, hb₁⟩ := heffect.follow?_eq hb
    obtain ⟨b', hfold, hb'⟩ := ih hops hb₁
    rw [heffect.frame.1, heffect.frame.2.2] at hfold
    refine ⟨b', ?_, hb'⟩
    rw [List.foldlM_cons, hfollow]
    exact hfold

/-! ## Programs to look at -/

/-- A program that shows its stack with a word on it, and then jumps out of memory. -/
def stumbling : Program where
  cells := [⟨805306373, 1⟩, ⟨7, 1⟩, ⟨14, 2⟩, ⟨805306374, 3⟩, ⟨-1, 3⟩, ⟨0, 3⟩]
  variableCount := 0

/-- A program that shows its stack, and then asks to move to the right. -/
def walking : Program where
  cells := [⟨14, 1⟩, ⟨1476395011, 2⟩, ⟨2000, 2⟩, ⟨2, 2⟩, ⟨0, 2⟩]
  variableCount := 0

end World

end GridBots
