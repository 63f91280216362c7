import GridBots.Proofs.Histories

/-!
# What reports say

A step of a world is reported by one outcome for every bot, and what it says about the bot is
true (`Outcome.IsTrue`, `World.isTrue_of_turn`): which move its program has asked for, or why it
has failed, and where the bot is then. Nothing is assumed of where the bots have been before.

So, if bots are put nowhere by hand, the invariant of a history is that all of them are inside
the bounds (`World.Effect.position_mem`). That there are no more bots than there is room for,
and that they keep their numbers, is true of every history.
-/

namespace GridBots

/-- The number of points that a change of position goes along the two axes. -/
def Delta.length (d : Delta) : Nat :=
  d.dx.toInt.natAbs + d.dy.toInt.natAbs

/-- That a delta is the change from a position to another one, in numbers that do not wrap
    around. -/
def Delta.IsChange (d : Delta) (old new : Position) : Prop :=
  new.x.toInt = old.x.toInt + d.dx.toInt ∧ new.y.toInt = old.y.toInt + d.dy.toInt

/-- What an outcome says about a bot: what its tick has come to, and where it has been before
    and is after the step. -/
def Outcome.IsTrue (bounds : Bounds) (result : Except ExecutionError Delta)
    (old new : Position) : Outcome → Prop
  | moved d => result = .ok d ∧ (d = .zero ∨ d.length = 1) ∧ d.IsChange old new ∧
      (d ≠ .zero → new ∈ bounds)
  | blocked d => result = .ok d ∧ d ≠ .zero ∧ d.length = 1 ∧
      (∀ position, d.IsChange old position → position ∉ bounds) ∧ new = old
  | failed e => result = .error e ∧ new = old

/-- That an operation leaves the bots where they are, or moves them in a step of the world. -/
def World.Operation.movesByStep : Operation → Bool
  | .edit _ (.moveTo _) => false
  | .edit _ (.applyMove _) => false
  | _ => true

/-! ## Turns -/

theorem Delta.length_ofRegister (w : Word) :
    Delta.ofRegister w = .zero ∨ (Delta.ofRegister w).length = 1 := by
  rw [ofRegister]
  cases Direction.ofWord? w with
  | none => exact .inl rfl
  | some d => cases d <;> exact .inr (by decide)

theorem Delta.isChange_iff {d : Delta} {old new : Position} :
    d.IsChange old new ↔ old.offset? d = some new :=
  Position.offset?_eq_some_iff.symm

theorem Delta.isChange_zero {old new : Position} : zero.IsChange old new ↔ new = old := by
  constructor
  · rintro ⟨hx, hy⟩
    have hx' : new.x = old.x := Int32.toInt_inj.1 (hx.trans (Int.add_zero _))
    have hy' : new.y = old.y := Int32.toInt_inj.1 (hy.trans (Int.add_zero _))
    cases new
    cases hx'
    cases hy'
    rfl
  · rintro rfl
    exact ⟨(Int.add_zero _).symm, (Int.add_zero _).symm⟩

theorem Machine.length_of_tick {σ : Type} {watch : Config → σ → σ} {watcher : σ} {fuel : Nat}
    {ctx : Context} {m : Memory} {t : Tick σ} {d : Delta}
    (h : tick fuel watch watcher ctx m = some t) (hd : t.result = .ok d) :
    d = .zero ∨ d.length = 1 := by
  obtain ⟨r, _, rfl⟩ := Option.map_eq_some_iff.1 h
  rw [Run.toTick] at hd
  cases hr : r.error? with
  | none =>
    rw [hr] at hd
    cases hd
    exact Delta.length_ofRegister _
  | some e =>
    rw [hr] at hd
    exact nomatch hd

section Turns

variable {bounds : Bounds} {result : Except ExecutionError Delta} {old new : Position} {b : Bot}
  {o : Outcome}

/-- The invariant of a step: a bot inside the bounds does not leave them. -/
theorem Outcome.IsTrue.mem (h : o.IsTrue bounds result old new) (hold : old ∈ bounds) :
    new ∈ bounds := by
  cases o with
  | moved d =>
    obtain ⟨_, _, hchange, hmem⟩ := h
    by_cases hd : d = .zero
    · subst hd
      rw [Delta.isChange_zero.1 hchange]
      exact hold
    · exact hmem hd
  | blocked d => exact h.2.2.2.2 ▸ hold
  | failed e => exact h.2 ▸ hold

theorem World.isTrue_settle (hresult : ∀ d, result = .ok d → d = .zero ∨ d.length = 1) :
    (settle bounds b result).2.IsTrue bounds result b.position
      (settle bounds b result).1.position := by
  cases result with
  | error e => exact ⟨rfl, rfl⟩
  | ok d =>
    have hlength := hresult d rfl
    rw [settle]
    by_cases hd : d = .zero
    · rw [Delta.isZero, decide_eq_true hd, if_pos rfl]
      subst hd
      exact ⟨rfl, .inl rfl, Delta.isChange_zero.2 rfl, fun h => absurd rfl h⟩
    · rw [Delta.isZero, decide_eq_false hd, if_neg Bool.false_ne_true]
      cases hfilter : (b.position.offset? d).filter (· ∈ bounds) with
      | none =>
        refine ⟨rfl, hd, hlength.resolve_left hd, fun position hchange hmem => ?_, rfl⟩
        rw [Delta.isChange_iff.1 hchange, Option.filter_some, if_pos (decide_eq_true hmem)]
          at hfilter
        exact nomatch hfilter
      | some position =>
        obtain ⟨hoffset, hmem⟩ := Option.filter_eq_some_iff.1 hfilter
        exact ⟨rfl, hlength, Delta.isChange_iff.2 hoffset, fun _ => of_decide_eq_true hmem⟩

theorem World.memory_settle : (settle bounds b result).1.memory = b.memory := by
  cases result with
  | error e => rfl
  | ok d =>
    rw [settle]
    split
    · rfl
    · split <;> rfl

/-- The outcome of a turn is true. -/
theorem Bot.isTrue_of_turn {capacity fuel : Nat} {t : Turn}
    (h : b.turn bounds capacity fuel = some t) :
    ∃ ticked, b.tickAlone capacity fuel = some ticked ∧ t.bot.memory = ticked.bot.memory ∧
      t.outcome.IsTrue bounds ticked.result b.position t.bot.position := by
  obtain ⟨ticked, hticked, rfl⟩ := Option.map_eq_some_iff.1 h
  refine ⟨ticked, hticked, World.memory_settle, ?_⟩
  obtain ⟨t', ht', rfl⟩ := Option.map_eq_some_iff.1 hticked
  exact World.isTrue_settle fun d hd => Machine.length_of_tick ht' hd

end Turns

namespace World

variable {w w' : World} {op : Operation} {answer : Answer} {ops : List Operation}
  {events : List Event}

/-! ## Histories -/

/-- There is room for all bots. -/
theorem Effect.length_le (h : Effect w op answer w') (hw : w.bots.length ≤ w.botCapacity) :
    w'.bots.length ≤ w'.botCapacity := by
  cases h with
  | added p position hposition hcapacity =>
    change (w.bots ++ [_]).length ≤ w.botCapacity
    rw [List.length_append]
    exact hcapacity
  | outOfBounds p position hposition => exact hw
  | tooManyBots p position hposition hcapacity => exact hw
  | edited id e b hb =>
    change (w.bots.set id _).length ≤ w.botCapacity
    rw [List.length_set]
    exact hw
  | unknownBot id e hb => exact hw
  | stepped fuel turns hturns =>
    change (turns.map Bot.Turn.bot).length ≤ w.botCapacity
    rw [List.length_map, ← hturns.length_eq]
    exact hw

/-- Bots that move by steps of the world stay inside the bounds. -/
theorem Effect.position_mem (h : Effect w op answer w') (hop : op.movesByStep = true)
    (hw : ∀ b ∈ w.bots, b.position ∈ w.bounds) : ∀ b ∈ w'.bots, b.position ∈ w'.bounds := by
  cases h with
  | added p position hposition hcapacity =>
    intro b hb
    obtain hb | hb := List.mem_append.1 hb
    · exact hw b hb
    · cases List.mem_singleton.1 hb
      exact hposition
  | outOfBounds p position hposition => exact hw
  | tooManyBots p position hposition hcapacity => exact hw
  | edited id e b₀ hb₀ =>
    intro b hb
    obtain hb | rfl := List.mem_or_eq_of_mem_set hb
    · exact hw b hb
    · have hold := hw b₀ (List.mem_of_getElem? hb₀)
      cases e with
      | poke a v => exact hold
      | moveTo position => exact nomatch hop
      | applyMove d => exact nomatch hop
      | reload p => exact hold
  | unknownBot id e hb => exact hw
  | stepped fuel turns hturns =>
    intro b' hb'
    obtain ⟨t, ht, rfl⟩ := List.mem_map.1 hb'
    obtain ⟨i, ht⟩ := List.mem_iff_getElem?.1 ht
    obtain ⟨b, hb, hturn⟩ := getElem?_of_forall₂ (List.Forall₂.flip (R := flip _) hturns) ht
    obtain ⟨ticked, _, _, htrue⟩ := Bot.isTrue_of_turn hturn
    exact htrue.mem (hw b (List.mem_of_getElem? hb))

section New

variable {bounds : Bounds} {botCapacity stackCapacity : Nat}

theorem length_le_of_run_new
    (h : (new bounds botCapacity stackCapacity).run ops = some (events, w)) :
    w.bots.length ≤ botCapacity := by
  have hle : w.bots.length ≤ w.botCapacity := invariant_of_run
    (P := fun v => v.bots.length ≤ v.botCapacity) h
    (fun _ _ _ _ _ heffect hv => heffect.length_le hv) (Nat.zero_le botCapacity)
  rwa [(frame_of_run h).2.1] at hle

theorem position_mem_of_run_new
    (h : (new bounds botCapacity stackCapacity).run ops = some (events, w))
    (hmoves : ∀ op ∈ ops, op.movesByStep = true) : ∀ b ∈ w.bots, b.position ∈ bounds := by
  have hmem : ∀ b ∈ w.bots, b.position ∈ w.bounds := invariant_of_run
    (P := fun v => ∀ b ∈ v.bots, b.position ∈ v.bounds) h
    (fun op hop _ _ _ heffect hv => heffect.position_mem (hmoves op hop) hv)
    fun _ hb => absurd hb List.not_mem_nil
  rwa [(frame_of_run h).1] at hmem

/-- A bot is the one that was added with its number, after what has then been done to it. -/
theorem foldlM_follow?_of_added {before after : List Event} {p : Program} {position : Position}
    {id : Nat} (h : (new bounds botCapacity stackCapacity).run ops =
      some (before ++ ⟨.add p position, .added id⟩ :: after, w)) :
    ∃ b, (after.map Event.operation).foldlM (Bot.follow? bounds stackCapacity id)
      (Bot.new p position) = some b ∧ w.bots[id]? = some b := by
  obtain ⟨_, _, w₁, heq, _, hbefore, rfl, hafter⟩ := exists_run_of_added h
  cases heq
  obtain ⟨hbounds, _, hstack⟩ := frame_of_run hbefore
  have hb : (w₁.bots ++ [Bot.new p position])[w₁.bots.length]? = some (Bot.new p position) :=
    List.getElem?_concat_length
  have hfollow := foldlM_follow?_of_run hafter hb
  rwa [hbounds, hstack] at hfollow

end New

section Step

variable {σ : Type} {fuel : Nat} {watch : Machine.Config → σ → σ} {watcher : σ} {s : Stepped σ}

theorem lengths_of_step (h : w.step fuel watch watcher = some s) :
    s.report.outcomes.length = w.bots.length ∧ s.world.bots.length = w.bots.length := by
  rw [step_eq] at h
  obtain ⟨turns, hturns, rfl⟩ := Option.map_eq_some_iff.1 h
  have hlength := (mapM_eq_some_iff.1 hturns).length_eq.symm
  exact ⟨(List.length_map _).trans hlength, (List.length_map _).trans hlength⟩

theorem ticks_of_step (h : w.step fuel watch watcher = some s) :
    s.report.tick = w.tick ∧ s.world.tick.toNat = (w.tick.toNat + 1) % UInt64.size := by
  rw [step_eq] at h
  obtain ⟨turns, _, rfl⟩ := Option.map_eq_some_iff.1 h
  exact ⟨rfl, UInt64.toNat_add w.tick 1⟩

/-- The outcome of a step is true of every bot, on whatever machine its tick has been run. -/
theorem isTrue_of_step {id : Nat} {b : Bot} (h : w.step fuel watch watcher = some s)
    (hb : w.bots[id]? = some b) :
    ∃ outcome b' result, s.report.outcome? id = some outcome ∧ s.world.bots[id]? = some b' ∧
      (∀ ctx watcher', ctx.capacity = w.stackCapacity →
        ∃ t, b.runTick fuel watch watcher' ctx = some t ∧ t.result = result ∧
          t.bot.memory = b'.memory) ∧
      outcome.IsTrue w.bounds result b.position b'.position := by
  rw [step_eq] at h
  obtain ⟨turns, hturns, rfl⟩ := Option.map_eq_some_iff.1 h
  obtain ⟨t, ht, hturn⟩ := getElem?_of_forall₂ (mapM_eq_some_iff.1 hturns) hb
  obtain ⟨ticked, hticked, hmemory, htrue⟩ := Bot.isTrue_of_turn hturn
  refine ⟨t.outcome, t.bot, ticked.result,
    (List.getElem?_map ..).trans (congrArg (Option.map Bot.Turn.outcome) ht),
    (List.getElem?_map ..).trans (congrArg (Option.map Bot.Turn.bot) ht),
    fun ctx watcher' hctx => ?_, htrue⟩
  rw [Bot.runTick_eq, hctx, hticked]
  exact ⟨_, rfl, rfl, hmemory.symm⟩

end Step

/-- Worlds are safe, and what their steps report is true. Take any history of a world that was
    new. There are no more bots than there is room for. Those that have been added have got the
    numbers from zero on, and keep them: the bot with a number is the one that was added with
    it, after what has then been done to it. If bots move by steps only, all of them are inside
    the bounds.

    And take any step of any world, wherever its bots are. It counts as one more, modulo 2⁶⁴,
    and has one outcome for every bot. The outcome is true of the bot, whatever the tick of the
    bot before has left on the stack. -/
theorem reports_true {bounds : Bounds} {botCapacity stackCapacity : Nat}
    (h : (new bounds botCapacity stackCapacity).run ops = some (events, w)) :
    w.bots.length ≤ botCapacity ∧
    events.filterMap Event.added? = List.range w.bots.length ∧
    (∀ before p position id after, events = before ++ ⟨.add p position, .added id⟩ :: after →
      ∃ b, (after.map Event.operation).foldlM (Bot.follow? bounds stackCapacity id)
        (Bot.new p position) = some b ∧ w.bots[id]? = some b) ∧
    ((∀ op ∈ ops, op.movesByStep = true) → ∀ b ∈ w.bots, b.position ∈ bounds) ∧
    ∀ {σ : Type} fuel (watch : Machine.Config → σ → σ) watcher (v : World) s,
      v.step fuel watch watcher = some s →
        s.report.tick = v.tick ∧ s.world.tick.toNat = (v.tick.toNat + 1) % UInt64.size ∧
        s.report.outcomes.length = v.bots.length ∧ s.world.bots.length = v.bots.length ∧
        ∀ id b, v.bots[id]? = some b → ∃ outcome b' result,
          s.report.outcome? id = some outcome ∧ s.world.bots[id]? = some b' ∧
          (∀ ctx watcher', ctx.capacity = v.stackCapacity →
            ∃ t, b.runTick fuel watch watcher' ctx = some t ∧ t.result = result ∧
              t.bot.memory = b'.memory) ∧
          outcome.IsTrue v.bounds result b.position b'.position := by
  refine ⟨length_le_of_run_new h, added_of_run_new h, ?kept, position_mem_of_run_new h, ?step⟩
  case kept =>
    rintro before p position id after rfl
    exact foldlM_follow?_of_added h
  case step =>
    intro σ fuel watch watcher v s hs
    obtain ⟨hreport, htick⟩ := ticks_of_step hs
    obtain ⟨houtcomes, hbots⟩ := lengths_of_step hs
    exact ⟨hreport, htick, houtcomes, hbots, fun id b hb => isTrue_of_step hs hb⟩

/-- What is done in a world with a bot that walks to the right, and another one. -/
def stroll : List Operation :=
  [.add walking ⟨1, 0⟩, .add stumbling ⟨3, 0⟩, .add stumbling ⟨0, 0⟩, .edit 1 (.poke 4100 7),
    .step 9, .step 9]

/-- A world that has made as many steps as it can count, with a bot that is as far on the right
    as a bot can be. -/
def edge : World :=
  ⟨⟨3, 3⟩, 1, 1, [Bot.new walking ⟨2147483647, 0⟩], 18446744073709551615⟩

theorem reports_true_walking :
    ∃ events w s, (new ⟨3, 3⟩ 2 1).run stroll = some (events, w) ∧
      (∀ op ∈ stroll, op.movesByStep = true) ∧ events.filterMap Event.added? = [0, 1] ∧
      (∀ b ∈ w.bots, b.position ∈ (⟨3, 3⟩ : Bounds)) ∧
      edge.step 9 (fun _ shown => shown + 1) 0 = some s ∧ s.watcher = 1 ∧
      s.report.outcomes = [.blocked ⟨1, 0⟩] ∧ s.world.tick.toNat = 0 ∧
      (∀ position, Delta.IsChange ⟨1, 0⟩ ⟨2147483647, 0⟩ position → position ∉ edge.bounds) := by
  have hany : ((new ⟨3, 3⟩ 2 1).run stroll).any (fun r => r.2.bots.length = 2) = true := by
    decide +kernel
  have hstep : (edge.step 9 (fun _ shown => shown + 1) 0).any (fun s =>
      s.watcher = 1 ∧ s.report.outcomes = [.blocked ⟨1, 0⟩]) = true := by
    decide +kernel
  have hmoves : ∀ op ∈ stroll, op.movesByStep = true := by decide
  obtain ⟨⟨events, w⟩, hrun, hlength⟩ := (Option.any_eq_true _ _).1 hany
  obtain ⟨s, hs, hblocked⟩ := (Option.any_eq_true _ _).1 hstep
  obtain ⟨hwatcher, houtcomes⟩ := of_decide_eq_true hblocked
  obtain ⟨_, hadded, _, hinside, htrue⟩ := reports_true hrun
  obtain ⟨_, htick, _, _, hbots⟩ := htrue 9 _ 0 edge s hs
  obtain ⟨outcome, b, result, houtcome, _, _, hblocked⟩ := hbots 0 _ rfl
  rw [Report.outcome?, houtcomes] at houtcome
  cases houtcome
  rw [of_decide_eq_true hlength] at hadded
  exact ⟨events, w, s, hrun, hmoves, hadded, hinside hmoves, hs, hwatcher, houtcomes, htick,
    hblocked.2.2.2.1⟩

end World

end GridBots
