import GridBots.Proofs.Failures
import GridBots.Proofs.Reports

/-!
# What a tick changes

Of all instructions, only `SET` changes the memory, and it changes one word (`written?`). So
the memory in the end is that of the start with the words written that the run has written, one
after the other (`memory_of_run`), and at every address is the word that was written there last
(`Memory.read_writeAll`).

The system registers are zero at the start. So a bot is moved only if its program has asked for
it in the same tick, and what was in the registers or on the stack before makes no difference
(`tick_changes`).
-/

namespace GridBots

namespace Memory

/-- The memory after words are stored one after the other, each at an address. -/
def writeAll (m : Memory) (writes : List (Nat × Word)) : Memory :=
  writes.foldl (fun m s => m.write s.1 s.2) m

theorem writeAll_append (m : Memory) (writes later : List (Nat × Word)) :
    m.writeAll (writes ++ later) = (m.writeAll writes).writeAll later :=
  List.foldl_append

/-- At an address is the word that was stored there last. -/
theorem read_writeAll {m : Memory} {writes : List (Nat × Word)} {a : Nat} (ha : a < size) :
    (m.writeAll writes).read a = (writes.reverse.lookup a).or (m.read a) := by
  induction writes generalizing m with
  | nil => rfl
  | cons s writes ih =>
    have hwrite : (m.write s.1 s.2).read a = ([s].lookup a).or (m.read a) := by
      rw [read_write, List.lookup_cons]
      by_cases h : s.1 = a
      · subst h
        rw [if_pos ⟨rfl, ha⟩, beq_self_eq_true]
        rfl
      · rw [if_neg fun hs => h hs.1, beq_false_of_ne (Ne.symm h)]
        rfl
    rw [List.reverse_cons, List.lookup_append, Option.or_assoc, ← hwrite]
    exact ih

/-- Memories that differ in the system registers only are the same once these are cleared. -/
theorem clearSystem_congr {m m' : Memory}
    (h : ∀ a, a < size → a ∉ systemZone → m'.read a = m.read a) :
    m'.clearSystem = m.clearSystem := by
  refine ext_read fun a ha => ?_
  rw [read_clearSystem, read_clearSystem]
  by_cases hz : a ∈ systemZone
  · obtain ⟨w, hw⟩ := exists_read (m := m) ha
    obtain ⟨w', hw'⟩ := exists_read (m := m') ha
    rw [hw, hw', Option.map_some, Option.map_some, if_pos hz, if_pos hz]
  · rw [h a ha hz]

end Memory

namespace Machine

variable {capacity : Nat} {c c' : Config} {op : Opcode} {h : Header} {args : List Word}
  {shown : Option Config}

/-- What an instruction with the given operands writes, and where, if it does: with one operand
    the word on top of the stack, with two the second of them. -/
def writtenBy? (op : Opcode) (h : Header) (args : List Word) (c : Config) : Option (Nat × Word) :=
  if op = .set then
    match h.operandCount with
    | 1 => c.stack.head?.bind fun w => (Memory.locate? (args.getD 0 0)).map fun a => (a, w)
    | 2 => (Memory.locate? (args.getD 0 0)).map fun a => (a, args.getD 1 0)
    | _ => none
  else none

/-- What the instruction that comes next writes, and where, if it does. -/
def written? (c : Config) : Option (Nat × Word) := do
  let w ← c.memory.read c.address
  let op ← executable? (Header.decode w).opcode
  let args ← (operands c.memory c.address op (Header.decode w)).toOption
  writtenBy? op (Header.decode w) args c

/-- What is written in a run of at most `fuel` steps, in its order: the word of every
    instruction that is executed and writes one. -/
def writes (capacity : Nat) : (fuel : Nat) → Config → List (Nat × Word)
  | 0, _ => []
  | fuel + 1, c =>
    match step capacity c with
    | .next c' _ => (written? c).toList ++ writes capacity fuel c'
    | _ => []

/-- The word that is written last at an address in a run of at most `fuel` steps. -/
def lastWritten? (capacity fuel : Nat) (c : Config) (a : Nat) : Option Word :=
  (writes capacity fuel c).reverse.lookup a

/-! ## Steps -/

theorem memory_of_execute_eq (he : execute capacity op h args c = .next c' shown) :
    c'.memory = c.memory.writeAll (writtenBy? op h args c).toList := by
  by_cases hset : op = .set
  · subst hset
    rw [execute] at he
    rw [writtenBy?, if_pos rfl]
    generalize h.operandCount = count at he ⊢
    rcases count with _ | _ | _ | _
    · cases he
      rfl
    · obtain ⟨w, stack, hs, hp⟩ := next_of_pop he
      obtain ⟨a, ha, rfl⟩ := next_of_store hp
      rw [hs]
      simp only [ha]
      rfl
    · obtain ⟨a, ha, rfl⟩ := next_of_store he
      simp only [ha]
      rfl
    · cases he
      rfl
  · rw [writtenBy?, if_neg hset]
    exact (memory_of_execute he).resolve_right fun hw => hset hw.1

/-- A step changes nothing in memory but what its instruction writes. -/
theorem memory_of_step_eq (hs : step capacity c = .next c' shown) :
    c'.memory = c.memory.writeAll (written? c).toList := by
  obtain ⟨w, op, args, hw, hop, ho, he⟩ := exists_execute_of_step hs
  have hwritten : written? c = writtenBy? op (Header.decode w) args c := by
    simp only [written?, hw, hop, ho, Except.toOption, Option.bind_eq_bind, Option.bind_some]
  rw [hwritten, memory_of_execute_eq he]

theorem eq_of_execute_eq_ended (he : execute capacity op h args c = .ended c') : c' = c := by
  have hpush : ∀ {c₁ : Config} {w next}, c₁.push capacity op w next ≠ .ended c' := by
    intro c₁ w next
    rw [Config.push]
    split <;> simp
  have hstore : ∀ {c₁ : Config} {target w next}, c₁.store op target w next ≠ .ended c' := by
    intro c₁ target w next
    rw [Config.store]
    split <;> simp
  have hpop : ∀ {act}, (∀ w c₁, act w c₁ ≠ .ended c') → c.pop op act ≠ .ended c' := by
    intro act hact
    rw [Config.pop]
    split
    · simp
    · exact hact _ _
  cases op with
  | halt => cases he; rfl
  | label => cases he
  | debug => cases he
  | add | sub | push | equal | greater | lesser | greaterEqual | lesserEqual =>
    exact absurd he hpush
  | set =>
    rw [execute] at he
    split at he
    · exact absurd he (hpop fun _ _ => hstore)
    · exact absurd he hstore
    · cases he
  | get =>
    rw [execute] at he
    refine absurd he (hpop fun _ _ => ?_)
    split
    · simp
    · exact hpush
  | jump =>
    rw [execute] at he
    split at he <;> cases he
  | branch =>
    rw [execute] at he
    refine absurd he (hpop fun _ _ => ?_)
    split
    · simp [Config.goto]
    · split <;> simp [Config.goto]

/-- The machine ends in the state it is in. -/
theorem eq_of_step_eq_ended (hs : step capacity c = .ended c') : c' = c := by
  rw [step] at hs
  split at hs
  · cases hs
    rfl
  rw [executeWord] at hs
  split at hs
  · cases hs
  split at hs
  · cases hs
  exact eq_of_execute_eq_ended hs

/-! ## Runs -/

/-- The memory in which a run ends, or fails, is that of its start with all words written that
    the run has written. -/
theorem memory_of_run {σ : Type} {watch : Config → σ → σ} {watcher : σ} {fuel : Nat} {r : Run σ}
    (hl : c.stack.length ≤ capacity) (hr : run capacity watch fuel watcher c = some r) :
    r.final.memory = c.memory.writeAll (writes capacity fuel c) := by
  induction fuel generalizing watcher c with
  | zero => cases hr
  | succ fuel ih =>
    rw [writes]
    cases hs : step capacity c with
    | next c₁ shown =>
      rw [run_of_step hs] at hr
      obtain ⟨_, _, _, _, _, _, he⟩ := exists_execute_of_step hs
      rw [ih (length_stack_of_execute hl he) hr, memory_of_step_eq hs, ← Memory.writeAll_append]
    | ended c₁ =>
      rw [run, hs] at hr
      cases hr
      rw [eq_of_step_eq_ended hs]
      rfl
    | failed e c₁ =>
      rw [run, hs] at hr
      cases hr
      obtain ⟨_, _, hmemory, _⟩ := isTrue_of_step hl hs
      exact hmemory

section Ticks

variable {σ : Type} {watch : Config → σ → σ} {watcher : σ} {fuel : Nat} {ctx : Context}
  {m : Memory} {t : Tick σ}

/-- After a tick, at every address is the word that the tick has written there last, or else
    the word from before, which is zero in a system register. -/
theorem read_of_tick (h : tick fuel watch watcher ctx m = some t) {a : Nat}
    (ha : a < Memory.size) :
    t.memory.read a = (lastWritten? ctx.capacity fuel (start ctx m) a).or
      (if a ∈ Memory.systemZone then some 0 else m.read a) := by
  obtain ⟨r, hr, rfl⟩ := Option.map_eq_some_iff.1 h
  obtain ⟨w, hw⟩ := Memory.exists_read (m := m) ha
  have hstart : (start ctx m).memory.read a =
      if a ∈ Memory.systemZone then some 0 else m.read a := by
    rw [start, Memory.read_clearSystem, hw, Option.map_some]
    split <;> rfl
  rw [← hstart, lastWritten?, ← Memory.read_writeAll ha, ← memory_of_run (Nat.zero_le _) hr]
  rfl

/-- The move that is asked for is the one that was written last, and none if nothing was. -/
theorem result_of_tick (h : tick fuel watch watcher ctx m = some t) {d : Delta}
    (hd : t.result = .ok d) :
    d = Delta.ofRegister
      ((lastWritten? ctx.capacity fuel (start ctx m) Memory.moveRegister).getD 0) := by
  have hread := read_of_tick h (a := Memory.moveRegister) (by decide)
  rw [if_pos (by decide)] at hread
  obtain ⟨r, _, rfl⟩ := Option.map_eq_some_iff.1 h
  have hresult : d = requested r.final.memory := by
    rw [Run.toTick] at hd
    dsimp only at hd
    split at hd
    · exact (Except.ok.inj hd).symm
    · cases hd
  have hfinal : r.final.memory.read Memory.moveRegister = _ := hread
  rw [hresult, requested, hfinal]
  cases lastWritten? ctx.capacity fuel (start ctx m) Memory.moveRegister <;> rfl

end Ticks

end Machine

/-- Only the words from one to four ask for a move. -/
theorem Delta.toInt_of_ofRegister {w : Word} (h : ofRegister w ≠ zero) :
    1 ≤ w.toInt ∧ w.toInt ≤ 4 := by
  rw [ofRegister] at h
  cases hd : Direction.ofWord? w with
  | none =>
    rw [hd] at h
    exact absurd rfl h
  | some d =>
    rw [← Direction.word_ofWord? hd]
    cases d <;> decide

/-- A bot is moved only by a change of position that its tick asks for. -/
theorem Bot.exists_result_of_step {σ : Type} {watch : Machine.Config → σ → σ} {watcher : σ}
    {fuel : Nat} {ctx : Machine.Context} {b : Bot} {ticked : Ticked σ}
    (h : b.step fuel watch watcher ctx = some ticked) (hmoved : ticked.bot.position ≠ b.position) :
    ∃ t d, Machine.tick fuel watch watcher ctx b.memory = some t ∧ t.result = .ok d ∧
      d ≠ .zero := by
  obtain ⟨ticked', h', rfl⟩ := Option.map_eq_some_iff.1 h
  obtain ⟨t, ht, rfl⟩ := Option.map_eq_some_iff.1 h'
  dsimp only at hmoved
  split at hmoved
  · next d hd =>
    refine ⟨t, d, ht, hd, fun hzero => hmoved ?_⟩
    rw [applyMove]
    split
    · rfl
    · next position hoffset =>
      exact Delta.isChange_zero.1 (hzero ▸ Delta.isChange_iff.2 hoffset)
  · exact absurd rfl hmoved

namespace Machine

/-- A tick changes nothing in memory but what it writes, and depends on nothing that the tick
    before may have left. When it returns, at every address is the word that its instructions
    have written there last; if they have written none, the word from before, or zero in a system
    register. If it does not fail, the move it asks for is the one that it has so left in the move
    register, so that a bot moves only if one of the four directions has been written there
    last, in this very tick. On the stack there is as much room as before.

    Neither the words on the stack nor those in the system registers before make any difference,
    whether the tick that has left them there has failed or not. -/
theorem tick_changes {σ : Type} (watch : Config → σ → σ) (watcher : σ) (fuel : Nat)
    (ctx : Context) (m : Memory) :
    (∀ t, tick fuel watch watcher ctx m = some t →
      (∀ a, a < 10000 → t.memory.read a = (lastWritten? ctx.capacity fuel (start ctx m) a).or
        (if 2000 ≤ a ∧ a < 3000 then some 0 else m.read a)) ∧
      (∀ d, t.result = .ok d →
        d = Delta.ofRegister ((lastWritten? ctx.capacity fuel (start ctx m) 2000).getD 0)) ∧
      t.context.capacity = ctx.capacity) ∧
    (∀ position ticked, (Bot.mk m position).step fuel watch watcher ctx = some ticked →
      ticked.bot.position ≠ position →
        ∃ w, lastWritten? ctx.capacity fuel (start ctx m) 2000 = some w ∧
          1 ≤ w.toInt ∧ w.toInt ≤ 4) ∧
    ∀ ctx' m', ctx'.capacity = ctx.capacity →
      (∀ a, a < 10000 → ¬(2000 ≤ a ∧ a < 3000) → m'.read a = m.read a) →
        tick fuel watch watcher ctx' m' = tick fuel watch watcher ctx m := by
  refine ⟨fun t ht => ⟨fun a ha => read_of_tick ht ha, fun d hd => result_of_tick ht hd,
    capacity_of_tick ht⟩, fun position ticked hticked hmoved => ?moves,
    fun ctx' m' hcapacity hm => ?same⟩
  case moves =>
    obtain ⟨t, d, ht, hd, hzero⟩ := Bot.exists_result_of_step hticked hmoved
    rw [result_of_tick ht hd] at hzero
    cases hw : lastWritten? ctx.capacity fuel (start ctx m) Memory.moveRegister with
    | none =>
      rw [hw] at hzero
      exact absurd (by decide) hzero
    | some w =>
      rw [hw] at hzero
      exact ⟨w, hw, Delta.toInt_of_ofRegister hzero⟩
  case same =>
    have hstart : start ctx' m' = start ctx m := by
      rw [start, start, Memory.clearSystem_congr hm, Context.reset, Context.reset, hcapacity]
    rw [tick, tick, hcapacity, hstart]

/-- A program that asks for a move with a word from the stack, and then writes at the address that
    is in the move register, where there is an operand of its own. -/
def striding : Memory :=
  .ofCode [1476395011, 4100, 3, 805306373, 2, 805306371, 2000, 1207959555, 2000, 5]

theorem tick_changes_striding :
    ∃ t ticked, tick 5 (fun _ _ => ()) () (Context.new 1) striding = some t ∧
      t.result = .ok ⟨1, 0⟩ ∧ t.memory.read 2 = some 5 ∧ t.memory.read 4100 = some 3 ∧
      t.memory.read 4 = some 2 ∧
      (Bot.mk striding ⟨0, 0⟩).step 5 (fun _ _ => ()) () (Context.new 1) = some ticked ∧
      ticked.bot.position ≠ ⟨0, 0⟩ ∧
      (∃ w, lastWritten? 1 5 (start (Context.new 1) striding) 2000 = some w ∧
        1 ≤ w.toInt ∧ w.toInt ≤ 4) ∧
      tick 5 (fun _ _ => ()) () ⟨1, [7]⟩ (striding.write 2000 4) = some t := by
  have hwrites : writes 1 5 (start (Context.new 1) striding) = [(4100, 3), (2000, 2), (2, 5)] := by
    decide +kernel
  have hruns : ((tick 5 (fun _ _ => ()) () (Context.new 1) striding).any fun t =>
      t.result = .ok ⟨1, 0⟩) = true := by
    decide +kernel
  have hmoves : (((Bot.mk striding ⟨0, 0⟩).step 5 (fun _ _ => ()) () (Context.new 1)).any
      fun ticked => ticked.bot.position ≠ ⟨0, 0⟩) = true := by
    decide +kernel
  obtain ⟨t, ht, hd⟩ := (Option.any_eq_true _ _).1 hruns
  obtain ⟨ticked, hticked, hposition⟩ := (Option.any_eq_true _ _).1 hmoves
  have hmoved : ticked.bot.position ≠ ⟨0, 0⟩ := of_decide_eq_true hposition
  obtain ⟨hreturns, hmove, hsame⟩ := tick_changes (fun _ _ => ()) () 5 (Context.new 1) striding
  obtain ⟨hread, _, _⟩ := hreturns t ht
  have hlast : ∀ a, lastWritten? (Context.new 1).capacity 5 (start (Context.new 1) striding) a =
      [(2, 5), (2000, 2), (4100, 3)].lookup a := fun a => congrArg (·.reverse.lookup a) hwrites
  refine ⟨t, ticked, ht, of_decide_eq_true hd, ?_, ?_, ?_, hticked, hmoved,
    hmove _ _ hticked hmoved, ?_⟩
  · rw [hread 2 (by decide), hlast]
    rfl
  · rw [hread 4100 (by decide), hlast]
    rfl
  · rw [hread 4 (by decide), hlast]
    exact Memory.read_ofCode (by decide) (by decide)
  · -- What is in the move register before makes no difference.
    have hother : ∀ a, a < 10000 → ¬(2000 ≤ a ∧ a < 3000) →
        (striding.write 2000 4).read a = striding.read a := by
      intro a _ hz
      rw [Memory.read_write, if_neg]
      omega
    rw [hsame ⟨1, [7]⟩ _ rfl hother, ht]

end Machine

end GridBots
