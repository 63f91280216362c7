import GridBots.Proofs.Histories

/-!
# Independence of bots

A bot does not notice the others. To see this, take a history of a world and a bot in it, and
leave out what is not about the bot: what has been before it was added, other bots that have
been added, and changes of other bots (`World.alone`). A world in which only the rest is done
has the same bot in it, and the outcomes for the bot are the same (`World.bots_independent`).

The invariant is that the second world has the bot of the first one for its only bot
(`World.IsAlone`). Every operation keeps it (`World.Effect.alone`), since a step of the world is
made of the turns of its bots.
-/

namespace GridBots.World

open Machine (record watchAll)

/-- What is done to the bot with a number in an event, in a world with no other bots. -/
def Event.alone? (id : Nat) (e : Event) : Option Operation :=
  match e.operation with
  | .add p position => if e.added? = some id then some (.add p position) else none
  | .edit i edit => if i = id then some (.edit 0 edit) else none
  | .step fuel => some (.step fuel)

/-- What is done to the bot with a number in a history, from when it is added on. -/
def alone (id : Nat) (events : List Event) : List Operation :=
  (events.dropWhile fun e => e.added? ≠ some id).filterMap (Event.alone? id)

/-- That a bot of a world is the only bot of another one. -/
structure IsAlone (w : World) (b : Bot) (solo : World) : Prop where
  bounds_eq : solo.bounds = w.bounds
  stackCapacity_eq : solo.stackCapacity = w.stackCapacity
  bots_eq : solo.bots = [b]

variable {w w' solo : World} {op : Operation} {ops : List Operation} {answer : Answer}
  {events before after : List Event} {id fuel : Nat} {b : Bot} {t : Bot.Turn}

/-- A step of a world with one bot is the turn of the bot. -/
theorem step_of_isAlone (hs : IsAlone w b solo)
    (ht : b.turn w.bounds w.stackCapacity fuel = some t) :
    solo.step fuel record [] = some
      { report := ⟨solo.tick, [t.outcome]⟩
        world := { solo with bots := [t.bot], tick := solo.tick + 1 }
        watcher := t.traps } := by
  rw [step_eq, hs.bounds_eq, hs.stackCapacity_eq, hs.bots_eq, List.mapM_cons, ht]
  have htraps : watchAll record [] ([t].flatMap Bot.Turn.traps) = t.traps := by
    rw [Machine.watchAll_record]
    exact List.append_nil _
  exact congrArg (fun traps => some (Stepped.mk _ _ traps)) htraps

/-- Whatever is done in a world, a bot of it stays the only bot of another one, if there it is
    done too as far as it is about the bot. -/
theorem Effect.alone (h : Effect w op answer w') (hb : w.bots[id]? = some b)
    (hs : IsAlone w b solo) :
    ∃ b', w'.bots[id]? = some b' ∧
      (Event.alone? id ⟨op, answer⟩ = none ∧ IsAlone w' b' solo ∧
          Event.outcome? id ⟨op, answer⟩ = none ∨
        ∃ op' answer' solo', Event.alone? id ⟨op, answer⟩ = some op' ∧ IsAlone w' b' solo' ∧
          solo.perform op' = some (answer', solo') ∧
          Event.outcome? 0 ⟨op', answer'⟩ = Event.outcome? id ⟨op, answer⟩) := by
  obtain ⟨b', hfollow, hb'⟩ := h.follow?_eq hb
  refine ⟨b', hb', ?_⟩
  cases h with
  | added p position hposition hcapacity =>
    -- The bot is there already, so its number is not given again.
    have hid : w.bots.length ≠ id := (Nat.ne_of_lt (List.getElem?_eq_some_iff.1 hb).1).symm
    cases hfollow
    exact .inl ⟨if_neg fun h => hid (Option.some.inj h), ⟨hs.1, hs.2, hs.3⟩, rfl⟩
  | outOfBounds p position hposition => cases hfollow; exact .inl ⟨rfl, hs, rfl⟩
  | tooManyBots p position hposition hcapacity => cases hfollow; exact .inl ⟨rfl, hs, rfl⟩
  | edited i e b₀ hb₀ =>
    cases hfollow
    by_cases hi : i = id
    · rw [if_pos hi]
      refine .inr ⟨.edit 0 e, .edited, { solo with bots := [e.apply b] }, if_pos hi,
        ⟨hs.1, hs.2, rfl⟩, ?_, rfl⟩
      rw [perform, editBot, bot, hs.bots_eq]
      rfl
    · rw [if_neg hi]
      exact .inl ⟨if_neg hi, ⟨hs.1, hs.2, hs.3⟩, rfl⟩
  | unknownBot i e hi =>
    have hne : i ≠ id := fun heq => Option.some_ne_none b (hb.symm.trans (heq ▸ hi))
    cases hfollow
    rw [if_neg hne]
    exact .inl ⟨if_neg hne, hs, rfl⟩
  | stepped fuel turns hturns =>
    obtain ⟨t, ht, hturn⟩ := getElem?_of_forall₂ hturns hb
    cases (congrArg (Option.map Bot.Turn.bot) hturn).symm.trans hfollow
    refine .inr ⟨.step fuel, .stepped ⟨solo.tick, [t.outcome]⟩ t.traps,
      { solo with bots := [t.bot], tick := solo.tick + 1 }, rfl, ⟨hs.1, hs.2, rfl⟩, ?_, ?_⟩
    · rw [perform, step_of_isAlone hs hturn]
      rfl
    · exact ((List.getElem?_map ..).trans (congrArg (Option.map Bot.Turn.outcome) ht)).symm

theorem exists_run_of_isAlone (h : w.run ops = some (events, w')) (hb : w.bots[id]? = some b)
    (hs : IsAlone w b solo) :
    ∃ b' solo' events', w'.bots[id]? = some b' ∧ IsAlone w' b' solo' ∧
      solo.run (events.filterMap (Event.alone? id)) = some (events', solo') ∧
      events'.filterMap (Event.outcome? 0) = events.filterMap (Event.outcome? id) := by
  induction ops generalizing w solo events b with
  | nil => cases h; exact ⟨b, solo, [], hb, hs, rfl, rfl⟩
  | cons op ops ih =>
    obtain ⟨answer, w₁, later, hop, hops, rfl⟩ := run_cons_eq_some.1 h
    obtain ⟨b₁, hb₁, ⟨hop', hs₁, hnone⟩ | ⟨op', answer', solo₁, hop', hs₁, hperform, houtcome⟩⟩ :=
      (effect_of_perform hop).alone hb hs
    · rw [List.filterMap_cons_none hop', List.filterMap_cons_none hnone]
      exact ih hops hb₁ hs₁
    · obtain ⟨b', solo', events', hb', hs', hrun, hevents⟩ := ih hops hb₁ hs₁
      rw [List.filterMap_cons_some hop']
      refine ⟨b', solo', ⟨op', answer'⟩ :: events', hb', hs',
        run_cons_eq_some.2 ⟨answer', solo₁, events', hperform, hrun, rfl⟩, ?_⟩
      rw [List.filterMap_cons, List.filterMap_cons, hevents, houtcome]

theorem alone_append {p : Program} {position : Position}
    (hbefore : id ∉ before.filterMap Event.added?) :
    alone id (before ++ ⟨.add p position, .added id⟩ :: after) =
      .add p position :: after.filterMap (Event.alone? id) := by
  have hdrop : (before ++ ⟨.add p position, .added id⟩ :: after).dropWhile
      (fun e => e.added? ≠ some id) = ⟨.add p position, .added id⟩ :: after := by
    rw [List.dropWhile_append_of_pos, List.dropWhile_cons_of_neg]
    · exact fun h => of_decide_eq_true h rfl
    · exact fun e he => decide_eq_true fun h => hbefore (List.mem_filterMap.2 ⟨e, he, h⟩)
  rw [alone, hdrop]
  exact List.filterMap_cons_some (if_pos rfl)

section New

variable {bounds : Bounds} {botCapacity stackCapacity room : Nat}

/-- A bot of a world is the only bot of the world in which only what is about it is done. -/
theorem exists_run_alone (h : (new bounds botCapacity stackCapacity).run ops = some (events, w))
    (hb : w.bots[id]? = some b) (hroom : 0 < room) :
    ∃ solo events', (new bounds room stackCapacity).run (alone id events) = some (events', solo) ∧
      IsAlone w b solo ∧
      events'.filterMap (Event.outcome? 0) = events.filterMap (Event.outcome? id) := by
  have hid := (List.getElem?_eq_some_iff.1 hb).1
  obtain ⟨before, op, after, rfl⟩ := exists_added h hid
  obtain ⟨p, position, w₁, rfl, hposition, hbefore, hlength, hafter⟩ := exists_run_of_added h
  have hb₁ : (w₁.bots ++ [Bot.new p position])[id]? = some (Bot.new p position) := by
    rw [← hlength, List.getElem?_concat_length]
  obtain ⟨hbounds, _, hstack⟩ := frame_of_run hbefore
  have hs₁ : IsAlone { w₁ with bots := w₁.bots ++ [Bot.new p position] } (Bot.new p position)
      ⟨bounds, room, stackCapacity, [Bot.new p position], 0⟩ :=
    ⟨hbounds.symm, hstack.symm, rfl⟩
  obtain ⟨b', solo, events', hb', hs, hrun, hevents⟩ := exists_run_of_isAlone hafter hb₁ hs₁
  cases Option.some.inj (hb.symm.trans hb')
  have hunused : id ∉ before.filterMap Event.added? := by
    rw [added_of_run_new hbefore, hlength]
    exact List.not_mem_range_self
  refine ⟨solo, ⟨.add p position, .added 0⟩ :: events', ?_, hs, ?_⟩
  · rw [alone_append hunused]
    exact run_cons_eq_some.2 ⟨.added 0, _, events',
      perform_of_effect (.added p position hposition hroom), hrun, rfl⟩
  · rw [List.filterMap_append, outcomes_eq_nil_of_run hbefore (Nat.le_of_eq hlength)]
    exact hevents

end New

/-- The turns of bots are steps of worlds with one bot each. The bots are numbered from `first`
    on, and `Q` says of a world which bot it is for. -/
theorem exists_steps_of_turns {Q : Nat → World → Prop} {bots : List Bot} {turns : List Bot.Turn}
    (h : List.Forall₂ (fun b t => b.turn w.bounds w.stackCapacity fuel = some t) bots turns)
    (first : Nat)
    (hsolo : ∀ i b, bots[i]? = some b → ∃ solo, Q (first + i) solo ∧ IsAlone w b solo) :
    ∃ steps : List (Stepped (List Machine.Config)),
      List.Forall₂ (fun id s => ∃ solo, Q id solo ∧ solo.step fuel record [] = some s)
        (List.range' first bots.length) steps ∧
      turns.map Bot.Turn.outcome = steps.flatMap (fun s => s.report.outcomes) ∧
      turns.flatMap Bot.Turn.traps = steps.flatMap Stepped.watcher := by
  induction h generalizing first with
  | nil => exact ⟨[], .nil, rfl, rfl⟩
  | cons hturn _ ih =>
    obtain ⟨solo, hQ, hs⟩ := hsolo 0 _ rfl
    obtain ⟨steps, hsteps, houtcomes, htraps⟩ := ih (first + 1) fun i b hb =>
      Nat.add_right_comm first i 1 ▸ hsolo (i + 1) b hb
    exact ⟨_ :: steps, .cons ⟨solo, hQ, step_of_isAlone hs hturn⟩ hsteps,
      congrArg (List.cons _) houtcomes, congrArg (List.append _) htraps⟩

/-- A step in a history is made of steps of worlds with one bot each. -/
theorem exists_steps_alone {bounds : Bounds} {botCapacity stackCapacity room : Nat} {r : Report}
    {traps : List Machine.Config}
    (h : (new bounds botCapacity stackCapacity).run ops =
      some (before ++ ⟨.step fuel, .stepped r traps⟩ :: after, w)) (hroom : 0 < room) :
    ∃ steps,
      List.Forall₂ (fun id s => ∃ solo,
          (∃ events',
            (new bounds room stackCapacity).run (alone id before) = some (events', solo)) ∧
          solo.step fuel record [] = some s)
        (List.range (before.filterMap Event.added?).length) steps ∧
      r.outcomes = steps.flatMap (fun s => s.report.outcomes) ∧
      traps = steps.flatMap Stepped.watcher := by
  obtain ⟨w₁, hbefore, hafter⟩ := exists_run_of_append h
  obtain ⟨answer, w₂, later, hop, _, heq⟩ := run_cons_eq_some.1 hafter
  cases heq
  cases effect_of_perform hop with
  | stepped fuel turns hturns =>
    rw [added_of_run_new hbefore, List.length_range, List.range_eq_range']
    refine exists_steps_of_turns hturns 0 fun i b hb => ?_
    obtain ⟨solo, events', hrun, hs, _⟩ := exists_run_alone hbefore hb hroom
    exact ⟨solo, ⟨events', (Nat.zero_add i).symm ▸ hrun⟩, hs⟩

/-- The bots of a world are independent. Take any history of a world that was new.

    * Every bot is as in a world with the same bounds and stacks in which only what is about
      this bot has been done, and it has had the same outcomes there.
    * The outcomes of a step, and the states it has shown, are those of steps of such worlds,
      one for every bot and in the order of their numbers.
    * Who watches a step makes no difference for what it comes to.
    * An operation that is refused changes nothing, and those are refused that add a bot out of
      bounds or without room for it, or change a bot that there is not. -/
theorem bots_independent {bounds : Bounds} {botCapacity stackCapacity : Nat}
    (h : (new bounds botCapacity stackCapacity).run ops = some (events, w)) :
    (∀ id b, w.bots[id]? = some b → ∀ room, 0 < room →
      ∃ solo events',
        (new bounds room stackCapacity).run (alone id events) = some (events', solo) ∧
        solo.bots = [b] ∧
        events'.filterMap (Event.outcome? 0) = events.filterMap (Event.outcome? id)) ∧
    (∀ before fuel r traps after, events = before ++ ⟨.step fuel, .stepped r traps⟩ :: after →
      ∀ room, 0 < room → ∃ steps,
        List.Forall₂ (fun id s => ∃ solo,
            (∃ events',
              (new bounds room stackCapacity).run (alone id before) = some (events', solo)) ∧
            solo.step fuel record [] = some s)
          (List.range (before.filterMap Event.added?).length) steps ∧
        r.outcomes = steps.flatMap (fun s => s.report.outcomes) ∧
        traps = steps.flatMap Stepped.watcher) ∧
    (∀ {σ : Type} fuel (watch : Machine.Config → σ → σ) watcher (v : World),
      v.step fuel watch watcher = (v.step fuel record []).map fun s =>
        { s with watcher := watchAll watch watcher s.watcher }) ∧
    (∀ (v v' : World) op e, v.perform op = some (.refused e, v') → v' = v) ∧
    (∀ (v : World) p position, position ∉ v.bounds ∨ v.botCapacity ≤ v.bots.length →
      ∃ e, v.perform (.add p position) = some (.refused e, v)) ∧
    (∀ (v : World) id edit, v.bots.length ≤ id →
      v.perform (.edit id edit) = some (.refused (.unknownBot id), v)) := by
  refine ⟨?alone, ?steps, fun fuel watch watcher v => step_eq_record v, ?refused, ?add, ?edit⟩
  case alone =>
    intro id b hb room hroom
    obtain ⟨solo, events', hrun, hs, hevents⟩ := exists_run_alone h hb hroom
    exact ⟨solo, events', hrun, hs.bots_eq, hevents⟩
  case steps =>
    rintro before fuel r traps after rfl room hroom
    exact exists_steps_alone h hroom
  case refused =>
    intro v v' op e hop
    cases effect_of_perform hop <;> rfl
  case add =>
    intro v p position hv
    by_cases hposition : position ∈ v.bounds
    · have hcapacity := hv.resolve_left (not_not.2 hposition)
      exact ⟨_, perform_of_effect (.tooManyBots p position hposition hcapacity)⟩
    · exact ⟨_, perform_of_effect (.outOfBounds p position hposition)⟩
  case edit =>
    intro v id edit hid
    exact perform_of_effect (.unknownBot id edit (List.getElem?_eq_none hid))

/-- What is done to a bot that walks to the right, and to another one that stumbles. -/
def walk : List Operation :=
  [.add stumbling ⟨0, 0⟩, .add walking ⟨1, 0⟩, .add walking ⟨2, 0⟩, .step 9,
    .edit 0 (.moveTo ⟨2, 2⟩), .step 9]

theorem bots_independent_stumbling :
    ∃ events w, (new ⟨3, 3⟩ 2 1).run walk = some (events, w) ∧
      events.filterMap (Event.outcome? 0) =
        [.failed (.outOfBounds 3 .jump (-1)), .failed (.outOfBounds 3 .jump (-1))] ∧
      ∃ solo events', (new ⟨3, 3⟩ 1 1).run (alone 1 events) = some (events', solo) ∧
        solo.bots.map Bot.position = [⟨2, 0⟩] ∧
        events'.filterMap (Event.outcome? 0) = [.moved ⟨1, 0⟩, .blocked ⟨1, 0⟩] := by
  have hany : ((new ⟨3, 3⟩ 2 1).run walk).any (fun r =>
      r.2.bots[1]?.map Bot.position = some ⟨2, 0⟩ ∧
      r.1.filterMap (Event.outcome? 0) =
        [.failed (.outOfBounds 3 .jump (-1)), .failed (.outOfBounds 3 .jump (-1))] ∧
      r.1.filterMap (Event.outcome? 1) = [.moved ⟨1, 0⟩, .blocked ⟨1, 0⟩]) = true := by
    decide +kernel
  obtain ⟨⟨events, w⟩, hrun, hany⟩ := (Option.any_eq_true _ _).1 hany
  obtain ⟨hposition, hfailed, hmoved⟩ := of_decide_eq_true hany
  obtain ⟨b, hb, hat⟩ := Option.map_eq_some_iff.1 hposition
  obtain ⟨solo, events', hsolo, hbots, hevents⟩ := (bots_independent hrun).1 1 b hb 1 Nat.one_pos
  refine ⟨events, w, hrun, hfailed, solo, events', hsolo, ?_, hevents.trans hmoved⟩
  rw [hbots, ← hat]
  rfl

end GridBots.World
