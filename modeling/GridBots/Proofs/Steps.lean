import GridBots.Machine.Tick
import Mathlib.Data.List.Forall2

/-!
# What a step does

The machine goes from state to state (`Machine.after`), and what a run comes to from a
state, it comes to from those that lead there (`Machine.Leads.run_eq`). A step from one
state to the next executes an instruction (`exists_execute_of_step`), after its operands are read
(`operand_of_operands`). All that an instruction may do is said once (`Effect`). Two things
matter for where the program goes: it may store one word in memory (`memory_of_step`), and
it is followed by the one after it, unless it is a jump or a conditional one
(`address_of_execute`).
-/

namespace GridBots.Machine

variable {capacity n : Nat} {c c' : Config} {op : Opcode} {h : Header} {args : List Word}
  {shown : Option Config}

/-- The state of the machine after the instruction that comes next, if it goes on then. -/
def next? (capacity : Nat) (c : Config) : Option Config :=
  match step capacity c with
  | .next c _ => some c
  | _ => none

/-- The state of the machine after `n` steps, if it goes on for so long. -/
def after (capacity : Nat) : (n : Nat) → Config → Option Config
  | 0, c => some c
  | n + 1, c => (after capacity n c).bind (next? capacity)

/-- The address at which the instruction that comes next stores a word, if it is one that
    does so. -/
def stored? (c : Config) : Option Nat := do
  let w ← c.memory.read c.address
  let op ← executable? (Header.decode w).opcode
  let args ← (operands c.memory c.address op (Header.decode w)).toOption
  if op = .set ∧ ((Header.decode w).operandCount = 1 ∨ (Header.decode w).operandCount = 2) then
    Memory.locate? (args.getD 0 0)
  else none

/-! ## Runs -/

theorem step_eq_of_next? (hn : next? capacity c = some c') :
    ∃ shown, step capacity c = .next c' shown := by
  rw [next?] at hn
  split at hn
  · next c₁ shown hs => exact ⟨shown, (Option.some.inj hn) ▸ hs⟩
  · simp at hn

section Runs

variable {σ : Type} {watch : Config → σ → σ} {watcher watcher' : σ} {r : Run σ}

/-- The state of whoever watches, after what is shown. -/
def seen (watch : Config → σ → σ) (watcher : σ) : Option Config → σ
  | none => watcher
  | some shown => watch shown watcher

/-- The machine comes from the state `c` to the state `c'`, and a run goes on from there. -/
def Leads (capacity : Nat) (watch : Config → σ → σ) (c : Config) (watcher : σ) (c' : Config)
    (watcher' : σ) : Prop :=
  ∃ n, after capacity n c = some c' ∧
    ∀ fuel, run capacity watch (n + fuel) watcher c = run capacity watch fuel watcher' c'

theorem Leads.refl (c : Config) (watcher : σ) : Leads capacity watch c watcher c watcher :=
  ⟨0, rfl, fun fuel => by rw [Nat.zero_add]⟩

theorem after_add (n m : Nat) (c : Config) :
    after capacity (n + m) c = (after capacity n c).bind (after capacity m) := by
  induction m with
  | zero => exact (Option.bind_fun_some _).symm
  | succ m ih => rw [← Nat.add_assoc, after, ih, Option.bind_assoc]; rfl

theorem Leads.trans {c₁ : Config} {watcher₁ : σ} (h₁ : Leads capacity watch c watcher c₁ watcher₁)
    (h₂ : Leads capacity watch c₁ watcher₁ c' watcher') :
    Leads capacity watch c watcher c' watcher' := by
  obtain ⟨n, ha, hn⟩ := h₁
  obtain ⟨m, hb, hm⟩ := h₂
  refine ⟨n + m, ?_, fun fuel => by rw [Nat.add_assoc, hn, hm]⟩
  rw [after_add, ha, Option.bind_some, hb]

/-- A run goes on from the state after the next instruction. -/
theorem run_of_step (hs : step capacity c = .next c' shown) (fuel : Nat) (watcher : σ) :
    run capacity watch (fuel + 1) watcher c =
      run capacity watch fuel (seen watch watcher shown) c' := by
  rw [run, hs]
  cases shown with
  | none => rfl
  | some _ => rfl

theorem leads_of_step (watcher : σ) (hs : step capacity c = .next c' shown) :
    Leads capacity watch c watcher c' (seen watch watcher shown) := by
  refine ⟨1, ?_, fun fuel => ?_⟩
  · rw [after, after, Option.bind_some, next?, hs]
  · rw [Nat.add_comm, run_of_step hs]

/-- What a run comes to from a state, it comes to from the states before. -/
theorem Leads.run_eq (hl : Leads capacity watch c watcher c' watcher')
    (hr : run capacity watch n watcher' c' = some r) :
    ∃ n, run capacity watch n watcher c = some r := by
  obtain ⟨m, _, hm⟩ := hl
  exact ⟨m + n, by rw [hm, hr]⟩

end Runs

/-! ## Operands -/

theorem forall₂_of_mapM {α β ε : Type} {f : α → Except ε β} {l : List α} {l' : List β}
    (hl : l.mapM f = .ok l') : List.Forall₂ (fun a b => f a = .ok b) l l' := by
  induction l generalizing l' with
  | nil => cases hl; exact .nil
  | cons a l ih =>
    rw [List.mapM_cons] at hl
    cases ha : f a with
    | error e => rw [ha] at hl; cases hl
    | ok b =>
      rw [ha] at hl
      cases hm : l.mapM f with
      | error e => simp only [hm] at hl; cases hl
      | ok bs =>
        simp only [hm] at hl
        cases hl
        exact .cons ha (ih hm)

/-- The operands of an instruction are as many as its header says, each read by itself. -/
theorem operand_of_operands {m : Memory} {address index : Nat}
    (ho : operands m address op h = .ok args) (hi : index < h.operandCount) :
    operand m address op h index = .ok (args.getD index 0) := by
  have hf := forall₂_of_mapM ho
  have hl : args.length = h.operandCount := by rw [← hf.length_eq, List.length_range]
  have hg := (List.forall₂_iff_get.1 hf).2 index (by rwa [List.length_range]) (by rwa [hl])
  rw [List.get_eq_getElem, List.get_eq_getElem, List.getElem_range] at hg
  rw [hg, List.getD_eq_getElem?_getD, List.getElem?_eq_getElem (by rwa [hl])]
  rfl

/-- An immediate operand is the word that it is written as. -/
theorem getD_operands_of_isImmediate {m : Memory} {address index : Nat} {w : Word}
    (ho : operands m address op h = .ok args) (hi : h.isImmediate index = true)
    (hr : m.read (address + 1 + index) = some w) : args.getD index 0 = w := by
  have hlt : index < h.operandCount := by
    rw [Header.isImmediate, Bool.and_eq_true] at hi
    exact of_decide_eq_true hi.1
  have hw := operand_of_operands ho hlt
  rw [operand, hr] at hw
  dsimp only at hw
  rw [if_pos hi] at hw
  exact (Except.ok.inj hw).symm

/-! ## Steps -/

/-- If the machine goes on, there is an instruction that comes next, its operands have
    been read, and it has been executed. -/
theorem exists_execute_of_step (hs : step capacity c = .next c' shown) :
    ∃ w op args, c.memory.read c.address = some w ∧
      executable? (Header.decode w).opcode = some op ∧
      operands c.memory c.address op (Header.decode w) = .ok args ∧
      execute capacity op (Header.decode w) args c = .next c' shown := by
  rw [step] at hs
  split at hs
  · simp at hs
  next w hw =>
  rw [executeWord] at hs
  split at hs
  · simp at hs
  next op hop =>
  split at hs
  · simp at hs
  next args ho => exact ⟨w, op, args, hw, hop, ho, hs⟩

section Effects

variable {w first : Word} {next : Nat}

theorem next_of_push (hp : c.push capacity op w next = .next c' shown) :
    c' = { c with stack := w :: c.stack, address := next } := by
  rw [Config.push] at hp
  split at hp
  · exact (Step.next.inj hp).1.symm
  · simp at hp

theorem next_of_pop {act : Word → Config → Step} (hp : c.pop op act = .next c' shown) :
    ∃ w stack, c.stack = w :: stack ∧ act w { c with stack := stack } = .next c' shown := by
  rw [Config.pop] at hp
  split at hp
  · simp at hp
  next w stack hs => exact ⟨w, stack, hs, hp⟩

theorem next_of_store (hp : c.store op first w next = .next c' shown) :
    ∃ a, Memory.locate? first = some a ∧
      c' = { c with memory := c.memory.write a w, address := next } := by
  rw [Config.store] at hp
  split at hp
  · simp at hp
  next a ha => exact ⟨a, ha, (Step.next.inj hp).1.symm⟩

end Effects

/-- What an instruction may do if the machine goes on. -/
inductive Effect (op : Opcode) (h : Header) (args : List Word) (c : Config) : Config → Prop
  /-- It changes the stack, and is followed by the one after it. -/
  | next (stack : List Word) :
      op ≠ .jump → Effect op h args c ⟨c.memory, stack, c.address + h.width⟩
  /-- It stores a word, and is followed by the one after it. -/
  | store (a : Nat) (w : Word) (stack : List Word) :
      op = .set → (h.operandCount = 1 ∨ h.operandCount = 2) →
        Memory.locate? (args.getD 0 0) = some a →
          Effect op h args c ⟨c.memory.write a w, stack, c.address + h.width⟩
  /-- It is followed by the one at the address that its operand says. -/
  | jump (a : Nat) :
      op = .jump → (args.getD 0 0).toInt = a → Effect op h args c ⟨c.memory, c.stack, a⟩
  /-- It is followed by another one, as many words later as its operand says. -/
  | skip (a : Nat) (stack : List Word) :
      op = .branch → c.address + h.width + (args.getD 0 0).toInt = a →
        Effect op h args c ⟨c.memory, stack, a⟩

theorem effect_of_execute (he : execute capacity op h args c = .next c' shown) :
    Effect op h args c c' := by
  have hpush : ∀ {stack : List Word} {w : Word}, op ≠ .jump →
      Config.push ⟨c.memory, stack, c.address⟩ capacity op w (c.address + h.width) =
        .next c' shown → Effect op h args c c' := by
    intro stack w hne hp
    rw [next_of_push hp]
    exact .next _ hne
  cases op with
  | halt => cases he
  | add => exact hpush (by simp) he
  | sub => exact hpush (by simp) he
  | set =>
    -- With another number of operands, nothing is stored.
    rw [execute] at he
    split at he
    · next hc =>
      obtain ⟨w, stack, _, hp⟩ := next_of_pop he
      obtain ⟨a, ha, rfl⟩ := next_of_store hp
      exact .store a w stack rfl (.inl hc) ha
    · next hc =>
      obtain ⟨a, ha, rfl⟩ := next_of_store he
      exact .store a _ c.stack rfl (.inr hc) ha
    · cases he
      exact .next c.stack (by simp)
  | get =>
    rw [execute] at he
    obtain ⟨w, stack, _, hp⟩ := next_of_pop he
    dsimp only at hp
    split at hp
    · simp at hp
    · exact hpush (by simp) hp
  | push => exact hpush (by simp) he
  | jump =>
    rw [execute] at he
    split at he
    · simp at he
    next a ha =>
    cases he
    exact .jump a rfl (Word.address?_eq_some_iff.1 ha)
  | branch =>
    rw [execute] at he
    obtain ⟨w, stack, _, hp⟩ := next_of_pop he
    dsimp only at hp
    split at hp
    · cases hp
      exact .next stack (by simp)
    · split at hp
      · simp at hp
      next a ha =>
      cases hp
      exact .skip a stack rfl (Int.mem_toNat?.1 ha)
  | label => cases he; exact .next c.stack (by simp)
  | equal => exact hpush (by simp) he
  | greater => exact hpush (by simp) he
  | lesser => exact hpush (by simp) he
  | greaterEqual => exact hpush (by simp) he
  | lesserEqual => exact hpush (by simp) he
  | debug => cases he; exact .next c.stack (by simp)

/-- An instruction is followed by the one after it, unless it is a jump to another or a
    conditional one that skips as many words as its operand says. -/
theorem address_of_execute (he : execute capacity op h args c = .next c' shown) :
    (op ≠ .jump ∧ c'.address = c.address + h.width) ∨
      (op = .jump ∧ (args.getD 0 0).toInt = c'.address) ∨
      (op = .branch ∧ c.address + h.width + (args.getD 0 0).toInt = c'.address) := by
  rcases effect_of_execute he with ⟨_, hne⟩ | ⟨_, _, _, hset, _, _⟩ | ⟨_, hop, ha⟩ | ⟨_, _, hop, ha⟩
  · exact .inl ⟨hne, rfl⟩
  · exact .inl ⟨by simp [hset], rfl⟩
  · exact .inr (.inl ⟨hop, ha⟩)
  · exact .inr (.inr ⟨hop, ha⟩)

/-- An instruction changes the memory only if it stores a word, and then at that place. -/
theorem memory_of_execute (he : execute capacity op h args c = .next c' shown) :
    c'.memory = c.memory ∨
      (op = .set ∧ (h.operandCount = 1 ∨ h.operandCount = 2) ∧
        ∃ a w, Memory.locate? (args.getD 0 0) = some a ∧ c'.memory = c.memory.write a w) := by
  rcases effect_of_execute he with ⟨_, _⟩ | ⟨a, w, _, hset, hcount, ha⟩ | ⟨_, _, _⟩ | ⟨_, _, _, _⟩
  · exact .inl rfl
  · exact .inr ⟨hset, hcount, a, w, ha, rfl⟩
  · exact .inl rfl
  · exact .inl rfl

/-- A step changes the memory only where it stores a word. -/
theorem memory_of_step (hs : step capacity c = .next c' shown) :
    c'.memory = c.memory ∨ ∃ a w, stored? c = some a ∧ c'.memory = c.memory.write a w := by
  obtain ⟨w, op, args, hw, hop, ho, he⟩ := exists_execute_of_step hs
  refine (memory_of_execute he).imp_right fun ⟨hset, hcount, a, v, ha, hm⟩ => ⟨a, v, ?_, hm⟩
  rw [stored?, hw, Option.bind_eq_bind, Option.bind_some, hop, Option.bind_eq_bind,
    Option.bind_some, ho]
  exact (if_pos ⟨hset, hcount⟩).trans ha

/-- A step that stores no word below an address leaves the words there as they are. -/
theorem read_of_step {a : Nat} (hs : step capacity c = .next c' shown)
    (ha : ∀ b, stored? c = some b → a < b) : c'.memory.read a = c.memory.read a := by
  rcases memory_of_step hs with hm | ⟨b, w, hb, hm⟩
  · rw [hm]
  · rw [hm, Memory.read_write, if_neg fun h => Nat.ne_of_gt (ha b hb) h.1]

end GridBots.Machine
