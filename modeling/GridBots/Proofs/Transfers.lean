import GridBots.Proofs.Capacities
import Mathlib.Data.List.Chain

/-!
# What makes a tick run on

An instruction is followed by one at a greater address, unless it is a *transfer backwards*
(`Config.goesBack`): a jump to its own address or one before, or a conditional one that pops a zero
and skips back over all of its own words at least. This is so of every instruction of every program,
also of those that a program has written itself.

So a program can only run on by such transfers: there is one among any instructions that are
executed one after the other, if there are more of them than addresses, and a tick without one
ends (`goes_back_or_ends`). The measure is the address, which grows from one instruction to
the next and stays below the size of memory (`address_add_length_le`).
-/

namespace GridBots.Machine

variable {capacity fuel : Nat} {c c' : Config} {op : Opcode} {h : Header} {args : List Word}
  {w : Word} {shown : Option Config}

/-- Whether an instruction with the given operands transfers backwards. -/
def isBackward (op : Opcode) (h : Header) (args : List Word) (c : Config) : Bool :=
  match op with
  | .jump => (args.getD 0 0).toInt ≤ c.address
  | .branch => c.stack.head? = some 0 ∧ (args.getD 0 0).toInt ≤ -(1 + h.operandCount)
  | _ => false

/-- Whether the instruction that comes next transfers backwards. -/
def Config.goesBack (c : Config) : Bool :=
  (c.memory.read c.address).any fun w =>
    (executable? (Header.decode w).opcode).any fun op =>
      match operands c.memory c.address op (Header.decode w) with
      | .error _ => false
      | .ok args => isBackward op (Header.decode w) args c

/-- The states of the machine before each instruction that it executes, from a state on and in at
    most `fuel` steps. -/
def executed (capacity : Nat) : (fuel : Nat) → Config → List Config
  | 0, _ => []
  | fuel + 1, c =>
    if c.address < Memory.size then
      c :: match step capacity c with
        | .next c' _ => executed capacity fuel c'
        | _ => []
    else []

/-! ## Single instructions -/

/-- A conditional instruction pops a word, and skips words if this is zero. -/
theorem exists_head?_of_branch (he : execute capacity .branch h args c = .next c' shown) :
    ∃ w, c.stack.head? = some w ∧
      (c'.address : Int) = c.address + h.width + if w = 0 then (args.getD 0 0).toInt else 0 := by
  rw [execute] at he
  obtain ⟨w, stack, hstack, hp⟩ := next_of_pop he
  refine ⟨w, by rw [hstack, List.head?_cons], ?_⟩
  dsimp only at hp
  split at hp
  · next hw =>
    cases hp
    simp [hw]
  · next hw =>
    split at hp
    · cases hp
    · next a ha =>
      cases hp
      rw [if_pos (not_not.1 hw), ← Int.mem_toNat?.1 ha]
      simp

/-- An instruction is followed by one that is not after it exactly if it transfers backwards. -/
theorem address_le_iff_isBackward
    (he : execute capacity op (Header.decode w) args c = .next c' shown) :
    c'.address ≤ c.address ↔ isBackward op (Header.decode w) args c = true := by
  have hwidth := Header.width_decode w
  cases op with
  | jump =>
    rcases address_of_execute he with ⟨hne, _⟩ | ⟨_, ha⟩ | ⟨hop, _⟩
    · exact absurd rfl hne
    · rw [isBackward, ha, decide_eq_true_eq, Int.ofNat_le]
    · cases hop
  | branch =>
    obtain ⟨v, hv, ha⟩ := exists_head?_of_branch he
    simp only [isBackward, hv, Option.some.injEq, decide_eq_true_eq]
    split at ha
    · next hzero =>
      simp only [hzero, true_and]
      omega
    · next hne =>
      simp only [hne, false_and, iff_false]
      omega
  | halt | add | sub | set | get | push | label | equal | greater | lesser | greaterEqual
  | lesserEqual | debug =>
    -- All others are followed by the one after them.
    rcases address_of_execute he with ⟨_, ha⟩ | ⟨hop, _⟩ | ⟨hop, _⟩
    · simp only [isBackward, Bool.false_eq_true, iff_false]
      omega
    · cases hop
    · cases hop

theorem address_le_iff_goesBack (hs : step capacity c = .next c' shown) :
    c'.address ≤ c.address ↔ c.goesBack = true := by
  obtain ⟨w, op, args, hw, hop, hargs, he⟩ := exists_execute_of_step hs
  rw [address_le_iff_isBackward he, Config.goesBack, hw, Option.any_some, hop, Option.any_some,
    hargs]

/-- Where the machine goes on, it has executed an instruction. -/
theorem address_lt_size_of_step (hs : step capacity c = .next c' shown) :
    c.address < Memory.size := by
  obtain ⟨_, _, _, hw, _⟩ := exists_execute_of_step hs
  exact Memory.lt_size_of_read hw

/-! ## Instructions one after the other -/

theorem executed_of_step (hs : step capacity c = .next c' shown) :
    executed capacity (fuel + 1) c = c :: executed capacity fuel c' := by
  rw [executed, if_pos (address_lt_size_of_step hs), hs]

theorem executed_of_last? (hs : (step capacity c).last?.isSome = true) :
    executed capacity (fuel + 1) c = if c.address < Memory.size then [c] else [] := by
  rw [executed]
  cases hstep : step capacity c with
  | next c' shown => simp [hstep, Step.last?] at hs
  | ended c' => rfl
  | failed e c' => rfl

theorem head?_executed_eq_or (capacity fuel : Nat) (c : Config) :
    executed capacity fuel c = [] ∨ (executed capacity fuel c).head? = some c := by
  cases fuel with
  | zero => exact .inl rfl
  | succ fuel =>
    rw [executed]
    split
    · exact .inr rfl
    · exact .inl rfl

theorem isChain_executed (capacity fuel : Nat) (c : Config) :
    (executed capacity fuel c).IsChain fun c₁ c₂ => next? capacity c₁ = some c₂ := by
  induction fuel generalizing c with
  | zero => exact .nil
  | succ fuel ih =>
    cases hs : step capacity c with
    | next c' shown =>
      rw [executed_of_step hs, List.isChain_cons]
      refine ⟨fun c₂ hc₂ => ?_, ih c'⟩
      rcases head?_executed_eq_or capacity fuel c' with hnil | hhead
      · simp [hnil] at hc₂
      · rw [next?, hs]
        exact hhead.symm.trans hc₂
    | ended c' | failed e c' =>
      rw [executed_of_last? (by rw [hs]; rfl)]
      split
      · exact .singleton c
      · exact .nil

theorem address_lt_of_mem_executed (hc : c' ∈ executed capacity fuel c) :
    c'.address < Memory.size := by
  induction fuel generalizing c with
  | zero => cases hc
  | succ fuel ih =>
    rw [executed] at hc
    split at hc
    · next hlt =>
      rcases List.mem_cons.1 hc with rfl | hc
      · exact hlt
      · split at hc
        · exact ih hc
        · cases hc
    · cases hc

/-- Instructions that are executed one after the other without going back are at greater and
    greater addresses. -/
theorem address_add_length_le {l : List Config}
    (hl : (c :: l).IsChain fun c₁ c₂ => next? capacity c₁ = some c₂)
    (hlt : ∀ c' ∈ c :: l, c'.address < Memory.size)
    (hforward : ∀ c' ∈ c :: l, c'.goesBack = false) :
    c.address + (c :: l).length ≤ Memory.size := by
  induction l generalizing c with
  | nil => exact hlt c List.mem_cons_self
  | cons c₁ l ih =>
    rw [List.isChain_cons_cons] at hl
    rw [List.forall_mem_cons] at hlt hforward
    obtain ⟨shown, hs⟩ := step_eq_of_next? hl.1
    have haddress : c.address < c₁.address := by
      rw [← Nat.not_le, address_le_iff_goesBack hs, hforward.1]
      exact Bool.false_ne_true
    have hrest := ih hl.2 hlt.2 hforward.2
    rw [List.length_cons]
    omega

/-- There are no more instructions than addresses, one after the other without going back. -/
theorem length_le_size {l : List Config} (hl : l <:+: executed capacity fuel c)
    (hforward : ∀ c' ∈ l, c'.goesBack = false) : l.length ≤ Memory.size := by
  cases l with
  | nil => exact Nat.zero_le _
  | cons c₁ l =>
    have hlt : ∀ c' ∈ c₁ :: l, c'.address < Memory.size :=
      fun c' hc' => address_lt_of_mem_executed (hl.subset hc')
    have hchain := isChain_executed capacity fuel c
    obtain ⟨_, _, heq⟩ := hl
    rw [← heq, List.isChain_append, List.isChain_append] at hchain
    exact Nat.le_trans (Nat.le_add_left _ _) (address_add_length_le hchain.1.2.1 hlt hforward)

/-! ## Runs -/

section Runs

variable {σ : Type} {watch : Config → σ → σ}

/-- A run that does not go back ends when there are no more addresses. -/
theorem exists_run_of_forward (watcher : σ)
    (hforward : ∀ c' ∈ executed capacity fuel c, c'.goesBack = false)
    (hfuel : Memory.size - c.address < fuel) :
    ∃ r, run capacity watch fuel watcher c = some r := by
  induction fuel generalizing watcher c with
  | zero => exact absurd hfuel (Nat.not_lt_zero _)
  | succ fuel ih =>
    cases hs : step capacity c with
    | next c' shown =>
      rw [executed_of_step hs, List.forall_mem_cons] at hforward
      have hlt := address_lt_size_of_step hs
      have haddress : c.address < c'.address := by
        rw [← Nat.not_le, address_le_iff_goesBack hs, hforward.1]
        exact Bool.false_ne_true
      rw [run_of_step hs]
      exact ih _ hforward.2 (by omega)
    | ended c' => exact ⟨⟨none, c', watcher⟩, by rw [run, hs]⟩
    | failed e c' => exact ⟨⟨some e, c', watcher⟩, by rw [run, hs]⟩

end Runs

/-- Only transfers backwards can make a tick run on. Take any memory, and any room on the stack.
    An instruction that is executed ends the tick, or it is followed by one after it, unless it is
    a transfer backwards. Among any 10001 instructions that are executed one after the other is a
    transfer backwards. If there is none, the tick ends, and has executed at most 10000
    instructions. -/
theorem goes_back_or_ends {σ : Type} (watch : Config → σ → σ) (watcher : σ) (ctx : Context)
    (m : Memory) :
    (∀ fuel, ∀ c ∈ executed ctx.capacity fuel (start ctx m),
      (∃ c', step ctx.capacity c = .ended c') ∨ (∃ e c', step ctx.capacity c = .failed e c') ∨
        ∃ c' shown, step ctx.capacity c = .next c' shown ∧
          (c'.address ≤ c.address ↔ c.goesBack = true)) ∧
    (∀ fuel l, l <:+: executed ctx.capacity fuel (start ctx m) → l.length = 10001 →
      ∃ c ∈ l, c.goesBack = true) ∧
    ∀ fuel, 10000 < fuel →
      (∀ c ∈ executed ctx.capacity fuel (start ctx m), c.goesBack = false) →
        (∃ t, tick fuel watch watcher ctx m = some t) ∧
          (executed ctx.capacity fuel (start ctx m)).length ≤ 10000 := by
  refine ⟨fun fuel c _ => ?_, fun fuel l hl hlength => ?_, fun fuel hfuel hforward => ⟨?_, ?_⟩⟩
  · cases hs : step ctx.capacity c with
    | ended c' => exact .inl ⟨c', rfl⟩
    | failed e c' => exact .inr (.inl ⟨e, c', rfl⟩)
    | next c' shown => exact .inr (.inr ⟨c', shown, rfl, address_le_iff_goesBack hs⟩)
  · by_contra hnone
    have hforward : ∀ c ∈ l, c.goesBack = false :=
      fun c hc => Bool.eq_false_iff.2 fun hback => hnone ⟨c, hc, hback⟩
    have hle : l.length ≤ 10000 := length_le_size hl hforward
    omega
  · obtain ⟨r, hr⟩ := exists_run_of_forward watcher hforward
      (Nat.lt_of_le_of_lt (Nat.sub_le _ _) hfuel)
    exact ⟨_, congrArg (Option.map _) hr⟩
  · exact length_le_size List.infix_rfl hforward

/-- A program that jumps to where it is. -/
def spinning : Memory :=
  .ofCode [805306374, 0]

/-- A program with a conditional instruction that skips back by one word, but has two operands: it
    lands on the last of its own words, which is that of an instruction that ends the tick. -/
def landing : Memory :=
  .ofCode [805306373, 0, 1476395015, -1, 0]

theorem length_executed_of_step (hs : step capacity c = .next c shown) (fuel : Nat) :
    (executed capacity fuel c).length = fuel := by
  induction fuel with
  | zero => rfl
  | succ fuel ih => rw [executed_of_step hs, List.length_cons, ih]

theorem goes_back_or_ends_landing :
    (∃ c ∈ executed 0 10001 (start (Context.new 0) spinning), c.goesBack = true) ∧
      (∃ t, tick 10001 (fun _ shown => shown + 1) 0 (Context.new 1) landing = some t) ∧
        (executed 1 10001 (start (Context.new 1) landing)).map Config.address = [0, 2, 4] := by
  have hspin : step 0 (start (Context.new 0) spinning) =
      .next (start (Context.new 0) spinning) none := rfl
  have hland : ∀ c ∈ executed 1 10001 (start (Context.new 1) landing), c.goesBack = false := by
    decide +kernel
  refine ⟨(goes_back_or_ends (fun _ shown => shown + 1) 0 (Context.new 0) spinning).2.1 10001
    _ List.infix_rfl (length_executed_of_step hspin 10001), ?_, by decide +kernel⟩
  exact ((goes_back_or_ends (fun _ shown => shown + 1) 0 (Context.new 1) landing).2.2 10001
    (by decide) hland).1

end GridBots.Machine
