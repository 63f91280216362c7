import GridBots.Proofs.Failures

/-!
# More room on the stack

The room on the stack limits what a program can do, but has no influence otherwise. A step that
does not fail for lack of room comes to the same if there is more (`step_of_le`). One that does
is that of an instruction that pushes a word without popping one, and it has changed nothing
(`step_of_overflow`); an instruction that pops a word first always has room to push one.

So two runs of a program with different room go through the same states, and show the same
(`watched_of_le`), up to the instruction that has no room in one of them
(`larger_stack_agrees`).
-/

namespace GridBots.Machine

variable {capacity larger n : Nat} {c c' : Config} {op op' : Opcode} {h : Header}
  {args : List Word} {a : Nat} {shown : Option Config}

/-! ## Steps -/

/-- An instruction that pushes a word without popping one does nothing else, whatever room
    there is. -/
theorem exists_execute_eq_push (hop : pushes op = true) (h : Header) (args : List Word)
    (c : Config) :
    ∃ w, ∀ room, execute room op h args c = c.push room op w (c.address + h.width) := by
  cases op with
  | add | sub | push | equal | greater | lesser | greaterEqual | lesserEqual =>
    exact ⟨_, fun _ => rfl⟩
  | halt | set | get | jump | branch | label | debug => cases hop

theorem push_of_le {w : Word} {next : Nat} (hcap : capacity ≤ larger)
    (hl : c.stack.length < capacity) :
    c.push larger op w next = c.push capacity op w next := by
  rw [Config.push, Config.push, if_pos hl, if_pos (Nat.lt_of_lt_of_le hl hcap)]

/-- Other instructions have room enough. -/
theorem execute_of_not_pushes (hop : pushes op = false) (hcap : capacity ≤ larger)
    (hl : c.stack.length ≤ capacity) :
    execute larger op h args c = execute capacity op h args c := by
  cases op with
  | get =>
    rw [execute, execute, Config.pop, Config.pop]
    split
    · rfl
    · next w stack hs =>
      -- Where a word has been popped, there is room for one.
      have hroom : stack.length < capacity := by
        rw [hs] at hl
        exact hl
      dsimp only
      split
      · rfl
      · exact push_of_le hcap hroom
  | add | sub | push | equal | greater | lesser | greaterEqual | lesserEqual => cases hop
  | halt | set | jump | branch | label | debug => rfl

/-- Whatever room there is, the instruction that comes next is executed, or is not for a reason
    that has nothing to do with room. -/
theorem exists_step_eq (c : Config) :
    (∃ s, (∀ room, step room c = s) ∧ ∀ a op c', s ≠ .failed (.stackOverflow a op) c') ∨
      ∃ op h args, ∀ room, step room c = execute room op h args c := by
  cases hw : c.memory.read c.address with
  | none =>
    refine .inl ⟨.ended c, fun room => ?_, fun _ _ _ hs => by cases hs⟩
    rw [step, hw]
  | some w =>
    have hword : ∀ room, step room c = executeWord room w (Header.decode w) c := by
      intro room
      rw [step, hw]
    cases hop : executable? (Header.decode w).opcode with
    | none =>
      refine .inl ⟨.failed (.unknownOpcode c.address w) c, fun room => ?_,
        fun _ _ _ hs => by cases hs⟩
      rw [hword, executeWord, hop]
    | some op =>
      cases hargs : operands c.memory c.address op (Header.decode w) with
      | error e =>
        refine .inl ⟨.failed e c, fun room => ?_, fun a op' c' hs => ?_⟩
        · rw [hword, executeWord, hop]
          dsimp only
          rw [hargs]
        · obtain ⟨_, rfl, _⟩ := exists_target_of_operands (Memory.lt_size_of_read hw) hargs
          cases hs
      | ok args =>
        refine .inr ⟨op, Header.decode w, args, fun room => ?_⟩
        rw [hword, executeWord, hop]
        dsimp only
        rw [hargs]

/-- An instruction for which there is no room would push a word, and has changed nothing. -/
theorem step_of_overflow (hl : c.stack.length ≤ capacity)
    (hs : step capacity c = .failed (.stackOverflow a op) c') :
    a = c.address ∧ c' = c ∧ c.stack.length = capacity ∧
      ∃ w next, ∀ room, step room c = c.push room op w next := by
  rcases exists_step_eq c with ⟨s, hstep, hne⟩ | ⟨op', h, args, hstep⟩
  · exact absurd ((hstep capacity).symm.trans hs) (hne a op c')
  · rw [hstep] at hs
    cases failure_of_execute hl hs with
    | overflow hstack hpushes =>
      obtain ⟨w, hw⟩ := exists_execute_eq_push hpushes h args c
      exact ⟨rfl, rfl, hstack, w, _, fun room => (hstep room).trans (hw room)⟩

/-- A step that does not fail for lack of room comes to the same if there is more. -/
theorem step_of_le (hcap : capacity ≤ larger) (hl : c.stack.length ≤ capacity)
    (hs : ∀ a op c', step capacity c ≠ .failed (.stackOverflow a op) c') :
    step larger c = step capacity c := by
  rcases exists_step_eq c with ⟨s, hstep, _⟩ | ⟨op, h, args, hstep⟩
  · rw [hstep, hstep]
  · rw [hstep, hstep]
    cases hpushes : pushes op with
    | false => exact execute_of_not_pushes hpushes hcap hl
    | true =>
      obtain ⟨w, hw⟩ := exists_execute_eq_push hpushes h args c
      rw [hw, hw]
      refine push_of_le hcap (Nat.not_le.1 fun hfull => hs c.address op c ?_)
      rw [hstep, hw, Config.push, if_neg (Nat.not_lt.2 hfull)]

/-! ## Runs -/

section Runs

variable {σ : Type} {watch : Config → σ → σ} {watcher watcher' : σ} {fuel : Nat} {r : Run σ}

/-- The state of the machine, and that of whoever watches, after `n` steps, if the machine goes
    on for so long. -/
def watched (capacity : Nat) (watch : Config → σ → σ) : (n : Nat) → σ → Config → Option (Config × σ)
  | 0, watcher, c => some (c, watcher)
  | n + 1, watcher, c =>
    match step capacity c with
    | .next c' shown => watched capacity watch n (seen watch watcher shown) c'
    | _ => none

/-- Why the machine has failed, if it did, and the state it is left in, after a step with which
    it does not go on. -/
def Step.last? : Step → Option (Option ExecutionError × Config)
  | .next _ _ => none
  | .ended c => some (none, c)
  | .failed e c => some (some e, c)

theorem watched_of_step (hs : step capacity c = .next c' shown) (n : Nat) (watcher : σ) :
    watched capacity watch (n + 1) watcher c =
      watched capacity watch n (seen watch watcher shown) c' := by
  rw [watched, hs]

theorem run_of_last? {e? : Option ExecutionError} (hs : (step capacity c).last? = some (e?, c'))
    (fuel : Nat) (watcher : σ) :
    run capacity watch (fuel + 1) watcher c = some ⟨e?, c', watcher⟩ := by
  rw [run]
  cases hstep : step capacity c with
  | next c₁ shown => rw [hstep] at hs; cases hs
  | ended c₁ => rw [hstep] at hs; cases hs; rfl
  | failed e c₁ => rw [hstep] at hs; cases hs; rfl

theorem run_add_of_watched (hw : watched capacity watch n watcher c = some (c', watcher'))
    (fuel : Nat) :
    run capacity watch (n + fuel) watcher c = run capacity watch fuel watcher' c' := by
  induction n generalizing watcher c with
  | zero =>
    cases hw
    rw [Nat.zero_add]
  | succ n ih =>
    rw [watched] at hw
    split at hw
    · next hs => rw [Nat.add_right_comm, run_of_step hs, ih hw]
    · cases hw

/-- A run is made of steps with which the machine goes on, and a last one with which it does
    not. -/
theorem exists_watched_of_run (hr : run capacity watch fuel watcher c = some r) :
    ∃ n rest c', fuel = n + (rest + 1) ∧
      watched capacity watch n watcher c = some (c', r.watcher) ∧
      (step capacity c').last? = some (r.error?, r.final) := by
  induction fuel generalizing watcher c with
  | zero => cases hr
  | succ fuel ih =>
    cases hs : step capacity c with
    | next c₁ shown =>
      rw [run_of_step hs] at hr
      obtain ⟨n, rest, c', rfl, hw, hlast⟩ := ih hr
      exact ⟨n + 1, rest, c', Nat.add_right_comm _ _ _,
        (watched_of_step hs n watcher).trans hw, hlast⟩
    | ended c₁ | failed e c₁ =>
      rw [run, hs] at hr
      cases hr
      exact ⟨0, fuel, c, (Nat.zero_add _).symm, rfl, by rw [hs]; rfl⟩

theorem after_of_watched (hw : watched capacity watch n watcher c = some (c', watcher')) :
    after capacity n c = some c' := by
  induction n generalizing watcher c with
  | zero => cases hw; rfl
  | succ n ih =>
    rw [watched] at hw
    split at hw
    · next hs =>
      rw [Nat.add_comm, after_add, after, after, Option.bind_some, next?, hs]
      exact ih hw
    · cases hw

theorem exists_watched_of_le {k : Nat} {x : Config × σ}
    (hw : watched capacity watch n watcher c = some x) (hk : k ≤ n) :
    ∃ y, watched capacity watch k watcher c = some y := by
  induction n generalizing k watcher c with
  | zero =>
    obtain rfl := Nat.le_zero.1 hk
    exact ⟨x, hw⟩
  | succ n ih =>
    cases k with
    | zero => exact ⟨_, rfl⟩
    | succ k =>
      rw [watched] at hw
      split at hw
      · next hs =>
        rw [watched_of_step hs]
        exact ih hw (Nat.le_of_succ_le_succ hk)
      · cases hw

/-- With more room, the machine goes through the same states, and shows the same. -/
theorem watched_of_le {x : Config × σ} (hcap : capacity ≤ larger) (hl : c.stack.length ≤ capacity)
    (hw : watched capacity watch n watcher c = some x) :
    watched larger watch n watcher c = some x := by
  induction n generalizing watcher c with
  | zero => exact hw
  | succ n ih =>
    rw [watched] at hw
    split at hw
    · next c₁ shown hs =>
      have hroom : step larger c = .next c₁ shown :=
        (step_of_le hcap hl fun a op c' he => by rw [hs] at he; cases he).trans hs
      obtain ⟨_, _, _, _, _, _, he⟩ := exists_execute_of_step hs
      rw [watched_of_step hroom]
      exact ih (length_stack_of_execute hl he) hw
    · cases hw

theorem Run.result_toTick_eq_error_iff {e : ExecutionError} :
    (r.toTick capacity).result = .error e ↔ r.error? = some e := by
  rw [Run.toTick]
  cases r.error? with
  | none => exact iff_of_false (by simp) (by simp)
  | some e' => exact ⟨fun h => congrArg some (Except.error.inj h), fun h => by cases h; rfl⟩

end Runs

/-- More room on the stack never changes a result. Take a tick that returns, and another one
    from the same memory with at least as much room. If the first does not fail for lack of
    room, the second has the same result, leaves the same memory and stack, and shows the same.

    If the first has no room at an instruction, both come to this instruction after the same
    states, and have shown the same on the way. The first then leaves everything as it is. If
    the second has more room, it executes the instruction, which pushes a word. -/
theorem larger_stack_agrees {σ : Type} (watch : Config → σ → σ) (watcher : σ) (fuel : Nat)
    {ctx ctx' : Context} (hcap : ctx.capacity ≤ ctx'.capacity) {m : Memory} {t : Tick σ}
    (h : tick fuel watch watcher ctx m = some t) :
    ((∀ a op, t.result ≠ .error (.stackOverflow a op)) →
      ∃ t', tick fuel watch watcher ctx' m = some t' ∧ t'.result = t.result ∧
        t'.memory = t.memory ∧ t'.context.stack = t.context.stack ∧ t'.watcher = t.watcher) ∧
    ∀ a op, t.result = .error (.stackOverflow a op) →
      ∃ n c, c.address = a ∧ step ctx.capacity c = .failed (.stackOverflow a op) c ∧
        watched ctx.capacity watch n watcher (start ctx m) = some (c, t.watcher) ∧
        t.memory = c.memory ∧ t.context.stack = c.stack ∧
        (∀ k ≤ n, watched ctx'.capacity watch k watcher (start ctx' m) =
          watched ctx.capacity watch k watcher (start ctx m)) ∧
        (ctx.capacity < ctx'.capacity → ∃ w next, step ctx'.capacity c =
          .next { c with stack := w :: c.stack, address := next } none) := by
  obtain ⟨r, hr, rfl⟩ := Option.map_eq_some_iff.1 h
  obtain ⟨n, rest, c, rfl, hw, hlast⟩ := exists_watched_of_run hr
  have hempty : (start ctx m).stack.length ≤ ctx.capacity := Nat.zero_le _
  have hl : c.stack.length ≤ ctx.capacity := length_stack_after hempty (after_of_watched hw)
  have hw' : watched ctx'.capacity watch n watcher (start ctx' m) = some (c, r.watcher) :=
    watched_of_le hcap hempty hw
  refine ⟨fun hresult => ?fits, fun a op hresult => ?overflows⟩
  case fits =>
    have hstep : step ctx'.capacity c = step ctx.capacity c := by
      refine step_of_le hcap hl fun a op c' hs => hresult a op ?_
      rw [hs] at hlast
      exact Run.result_toTick_eq_error_iff.2 (congrArg Prod.fst (Option.some.inj hlast)).symm
    rw [← hstep] at hlast
    have hrun : run ctx'.capacity watch (n + (rest + 1)) watcher (start ctx' m) = some r := by
      rw [run_add_of_watched hw']
      exact run_of_last? hlast rest r.watcher
    exact ⟨_, congrArg (Option.map _) hrun, rfl, rfl, rfl, rfl⟩
  case overflows =>
    rw [Run.result_toTick_eq_error_iff.1 hresult] at hlast
    have hfailed : step ctx.capacity c = .failed (.stackOverflow a op) r.final := by
      cases hs : step ctx.capacity c with
      | next _ _ | ended _ => rw [hs] at hlast; cases hlast
      | failed e c' => rw [hs] at hlast; cases hlast; rfl
    obtain ⟨rfl, hfinal, hfull, w, next, hpush⟩ := step_of_overflow hl hfailed
    rw [hfinal] at hfailed
    refine ⟨n, c, rfl, hfailed, hw, congrArg Config.memory hfinal, congrArg Config.stack hfinal,
      fun k hk => ?_, fun hlt => ⟨w, next, ?_⟩⟩
    · obtain ⟨y, hy⟩ := exists_watched_of_le hw hk
      rw [hy]
      exact watched_of_le hcap hempty hy
    · rw [hpush, Config.push, if_pos (hfull.symm ▸ hlt)]

/-- A program that pushes a word, shows it, and asks for a move by it. -/
def pushing : Memory :=
  .ofCode [805306373, 2, 14, 805306371, 2000]

theorem larger_stack_agrees_pushing :
    (∃ t, tick 4 (fun _ shown => shown + 1) 0 (Context.new 1) pushing = some t ∧
      t.result = .ok ⟨1, 0⟩ ∧ t.watcher = 1 ∧
      ∃ t', tick 4 (fun _ shown => shown + 1) 0 ⟨7, [5]⟩ pushing = some t' ∧
        t'.result = .ok ⟨1, 0⟩ ∧ t'.watcher = 1) ∧
    ∃ t, tick 4 (fun _ shown => shown + 1) 0 (Context.new 0) pushing = some t ∧
      t.result = .error (.stackOverflow 0 .push) ∧
      ∃ c w next, c.address = 0 ∧ step 0 c = .failed (.stackOverflow 0 .push) c ∧
        step 1 c = .next { c with stack := w :: c.stack, address := next } none := by
  have hruns : ((tick 4 (fun _ shown => shown + 1) 0 (Context.new 1) pushing).any fun t =>
      t.result = .ok ⟨1, 0⟩ ∧ t.watcher = 1) = true := by
    decide +kernel
  have hfails : ((tick 4 (fun _ shown => shown + 1) 0 (Context.new 0) pushing).any fun t =>
      t.result = .error (.stackOverflow 0 .push)) = true := by
    decide +kernel
  constructor
  · obtain ⟨t, ht, hd⟩ := (Option.any_eq_true _ _).1 hruns
    obtain ⟨hresult, hwatcher⟩ := of_decide_eq_true hd
    have hcap : (Context.new 1).capacity ≤ (⟨7, [5]⟩ : Context).capacity := by decide
    have hfits : ∀ a op, t.result ≠ .error (.stackOverflow a op) := by
      rw [hresult]
      simp
    obtain ⟨t', ht', hresult', _, _, hwatcher'⟩ :=
      (larger_stack_agrees _ 0 4 hcap ht).1 hfits
    exact ⟨t, ht, hresult, hwatcher, t', ht', hresult'.trans hresult, hwatcher'.trans hwatcher⟩
  · obtain ⟨t, ht, hd⟩ := (Option.any_eq_true _ _).1 hfails
    have hresult := of_decide_eq_true hd
    have hcap : (Context.new 0).capacity < (Context.new 1).capacity := by decide
    obtain ⟨n, c, ha, hfailed, _, _, _, _, hnext⟩ :=
      (larger_stack_agrees _ 0 4 (Nat.le_of_lt hcap) ht).2 0 .push hresult
    obtain ⟨w, next, hw⟩ := hnext hcap
    exact ⟨t, ht, hresult, c, w, next, ha, hfailed, hw⟩

end GridBots.Machine
