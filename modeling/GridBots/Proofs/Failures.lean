import GridBots.Proofs.Steps

/-!
# What an error says

A run that fails comes to a state in which the instruction that comes next cannot be executed
(`Machine.exists_step_of_run`). The ways in which an instruction can fail are listed once: its
operands cannot be read (`exists_target_of_operands`), or it fails after that (`Failure`). On
the stack there are never more words than there is room for (`length_stack_after`), so that
an instruction that pops a word first has room to push one.

From this follows what an error says about the memory and the stack that the machine is left
with (`ExecutionError.IsTrue`), and that the instruction has changed nothing, but for a word
it may have popped (`errors_tell_the_truth`).
-/

namespace GridBots

/-- A word is the address of no word in memory exactly if it is negative or too great. -/
theorem Memory.locate?_eq_none_iff {target : Word} :
    locate? target = none ↔ target.toInt < 0 ∨ size ≤ target.toInt := by
  constructor
  · intro h
    by_contra hn
    rw [not_or, Int.not_lt, Int.not_le] at hn
    have ha : locate? target = some target.toInt.toNat :=
      locate?_eq_some_iff.2 ⟨(Int.toNat_of_nonneg hn.1).symm, by omega⟩
    rw [h] at ha
    simp at ha
  · intro h
    refine Option.eq_none_iff_forall_ne_some.2 fun a ha => ?_
    obtain ⟨hi, hlt⟩ := locate?_eq_some_iff.1 ha
    omega

theorem Memory.lt_size_of_read {m : Memory} {a : Nat} {w : Word} (h : m.read a = some w) :
    a < size := by
  refine Nat.not_le.1 fun hle => ?_
  rw [read_eq_none_iff.2 hle] at h
  simp at h

theorem Memory.locate?_of_fetch? {m : Memory} {target : Word} (h : m.fetch? target = none) :
    locate? target = none := by
  cases ha : locate? target with
  | none => rfl
  | some a =>
    rw [fetch?, ha, Option.bind_some, read_eq_none_iff] at h
    exact absurd (locate?_eq_some_iff.1 ha).2 (Nat.not_lt.2 h)

namespace Machine

variable {capacity n : Nat} {c c' : Config} {op : Opcode} {h : Header} {args : List Word}
  {shown : Option Config} {e : ExecutionError}

/-! ## Room on the stack -/

theorem length_stack_of_push {w : Word} {next : Nat}
    (hp : c.push capacity op w next = .next c' shown) : c'.stack.length ≤ capacity := by
  rw [Config.push] at hp
  split at hp
  · next hlt => exact (Step.next.inj hp).1 ▸ hlt
  · simp at hp

theorem length_stack_of_execute (hl : c.stack.length ≤ capacity)
    (he : execute capacity op h args c = .next c' shown) : c'.stack.length ≤ capacity := by
  have htail : ∀ {w : Word} {stack}, c.stack = w :: stack → stack.length ≤ capacity := by
    intro w stack hs
    rw [hs] at hl
    exact Nat.le_of_succ_le hl
  cases op with
  | halt => cases he
  | set =>
    rw [execute] at he
    split at he
    · obtain ⟨w, stack, hs, hp⟩ := next_of_pop he
      obtain ⟨a, _, rfl⟩ := next_of_store hp
      exact htail hs
    · obtain ⟨a, _, rfl⟩ := next_of_store he
      exact hl
    · cases he
      exact hl
  | get =>
    rw [execute] at he
    obtain ⟨w, stack, _, hp⟩ := next_of_pop he
    dsimp only at hp
    split at hp
    · simp at hp
    · exact length_stack_of_push hp
  | jump =>
    rw [execute] at he
    split at he
    · simp at he
    · cases he
      exact hl
  | branch =>
    rw [execute] at he
    obtain ⟨w, stack, hs, hp⟩ := next_of_pop he
    dsimp only at hp
    split at hp
    · cases hp
      exact htail hs
    · split at hp
      · simp at hp
      · cases hp
        exact htail hs
  | label => cases he; exact hl
  | debug => cases he; exact hl
  | add | sub | push | equal | greater | lesser | greaterEqual | lesserEqual =>
    exact length_stack_of_push he

/-- There are never more words on the stack than there is room for. -/
theorem length_stack_after (hl : c.stack.length ≤ capacity) (ha : after capacity n c = some c') :
    c'.stack.length ≤ capacity := by
  induction n generalizing c' with
  | zero => exact Option.some.inj ha ▸ hl
  | succ n ih =>
    obtain ⟨c₁, h₁, hn⟩ := Option.bind_eq_some_iff.1 ha
    obtain ⟨shown, hs⟩ := step_eq_of_next? hn
    obtain ⟨_, _, _, _, _, _, he⟩ := exists_execute_of_step hs
    exact length_stack_of_execute (ih h₁) he

/-! ## Instructions that fail -/

/-- Whether an instruction pushes a word without popping one. -/
def pushes : Opcode → Bool
  | .add => true
  | .sub => true
  | .push => true
  | .equal => true
  | .greater => true
  | .lesser => true
  | .greaterEqual => true
  | .lesserEqual => true
  | _ => false

/-- How an instruction fails whose operands have been read, and the state it leaves. -/
inductive Failure (capacity : Nat) (op : Opcode) (h : Header) (args : List Word) (c : Config) :
    ExecutionError → Config → Prop
  /-- It pops a word from the empty stack. -/
  | underflow : c.stack = [] → (op = .get ∨ op = .branch ∨ op = .set ∧ h.operandCount = 1) →
      Failure capacity op h args c (.stackUnderflow c.address op) c
  /-- It pushes a word, and has no room for it. -/
  | overflow : c.stack.length = capacity → pushes op = true →
      Failure capacity op h args c (.stackOverflow c.address op) c
  /-- It loads or stores a word outside of memory, and may have popped one before. -/
  | outside (target : Word) (stack : List Word) : (op = .set ∨ op = .get) →
      Memory.locate? target = none → (stack = c.stack ∨ ∃ top, c.stack = top :: stack) →
        Failure capacity op h args c (.outOfBounds c.address op target) { c with stack := stack }
  /-- It goes on at a negative address, and may have popped a word before. -/
  | negative (stack : List Word) : (op = .jump ∨ op = .branch) → (args.getD 0 0).toInt < 0 →
      (stack = c.stack ∨ ∃ top, c.stack = top :: stack) →
        Failure capacity op h args c (.outOfBounds c.address op (args.getD 0 0))
          { c with stack := stack }

theorem failed_of_push {w : Word} {next : Nat} (hp : c.push capacity op w next = .failed e c') :
    capacity ≤ c.stack.length ∧ e = .stackOverflow c.address op ∧ c' = c := by
  rw [Config.push] at hp
  split at hp
  · simp at hp
  · next hlt =>
    cases hp
    exact ⟨Nat.le_of_not_lt hlt, rfl, rfl⟩

theorem failed_of_pop {act : Word → Config → Step} (hp : c.pop op act = .failed e c') :
    (c.stack = [] ∧ e = .stackUnderflow c.address op ∧ c' = c) ∨
      ∃ w stack, c.stack = w :: stack ∧ act w { c with stack := stack } = .failed e c' := by
  rw [Config.pop] at hp
  split at hp
  · next hs =>
    cases hp
    exact .inl ⟨hs, rfl, rfl⟩
  · next w stack hs => exact .inr ⟨w, stack, hs, hp⟩

theorem failed_of_store {target w : Word} {next : Nat}
    (hp : c.store op target w next = .failed e c') :
    Memory.locate? target = none ∧ e = .outOfBounds c.address op target ∧ c' = c := by
  rw [Config.store] at hp
  split at hp
  · next ha =>
    cases hp
    exact ⟨ha, rfl, rfl⟩
  · simp at hp

theorem failure_of_execute (hl : c.stack.length ≤ capacity)
    (he : execute capacity op h args c = .failed e c') : Failure capacity op h args c e c' := by
  have hpush : ∀ {w : Word}, pushes op = true →
      c.push capacity op w (c.address + h.width) = .failed e c' →
        Failure capacity op h args c e c' := by
    intro w hop hp
    obtain ⟨hc, rfl, rfl⟩ := failed_of_push hp
    exact .overflow (Nat.le_antisymm hl hc) hop
  cases op with
  | halt => cases he
  | label => cases he
  | debug => cases he
  | add | sub | push | equal | greater | lesser | greaterEqual | lesserEqual => exact hpush rfl he
  | set =>
    rw [execute] at he
    split at he
    · next hc =>
      rcases failed_of_pop he with ⟨hs, rfl, rfl⟩ | ⟨w, stack, hs, hp⟩
      · exact .underflow hs (.inr (.inr ⟨rfl, hc⟩))
      · obtain ⟨ha, rfl, rfl⟩ := failed_of_store hp
        exact .outside _ stack (.inl rfl) ha (.inr ⟨w, hs⟩)
    · obtain ⟨ha, rfl, rfl⟩ := failed_of_store he
      exact .outside _ _ (.inl rfl) ha (.inl rfl)
    · cases he
  | get =>
    rw [execute] at he
    rcases failed_of_pop he with ⟨hs, rfl, rfl⟩ | ⟨w, stack, hs, hp⟩
    · exact .underflow hs (.inl rfl)
    · dsimp only at hp
      split at hp
      · next hf =>
        cases hp
        exact .outside w stack (.inr rfl) (Memory.locate?_of_fetch? hf) (.inr ⟨w, hs⟩)
      · -- There is room for a word after one has been popped.
        obtain ⟨hc, _, _⟩ := failed_of_push hp
        rw [hs] at hl
        exact absurd hl (Nat.not_le.2 (Nat.lt_succ_of_le hc))
  | jump =>
    rw [execute] at he
    split at he
    · next ha =>
      cases he
      exact .negative c.stack (.inl rfl) (Word.address?_eq_none_iff.1 ha) (.inl rfl)
    · cases he
  | branch =>
    rw [execute] at he
    rcases failed_of_pop he with ⟨hs, rfl, rfl⟩ | ⟨w, stack, hs, hp⟩
    · exact .underflow hs (.inr (.inl rfl))
    · dsimp only at hp
      split at hp
      · cases hp
      · split at hp
        · next ha =>
          cases hp
          refine .negative stack (.inr rfl) ?_ (.inr ⟨w, hs⟩)
          -- The words after the instruction are not negative in number.
          have hneg : ¬(0 : Int) ≤ ((c.address + h.width : Nat) : Int) + (args.getD 0 0).toInt :=
            fun hle => by
              have hsome := Int.mem_toNat?.2 (Int.toNat_of_nonneg hle).symm
              rw [ha] at hsome
              simp at hsome
          omega
        · cases hp

/-! ## Operands that cannot be read -/

theorem exists_of_mapM_eq_error {α β ε : Type} {f : α → Except ε β} {l : List α} {e : ε}
    (hl : l.mapM f = .error e) : ∃ a ∈ l, f a = .error e := by
  induction l with
  | nil => cases hl
  | cons a l ih =>
    rw [List.mapM_cons] at hl
    cases ha : f a with
    | error e' =>
      rw [ha] at hl
      cases hl
      exact ⟨a, List.mem_cons_self, ha⟩
    | ok b =>
      rw [ha] at hl
      cases hm : l.mapM f with
      | ok bs => simp only [hm] at hl; cases hl
      | error e' =>
        simp only [hm] at hl
        cases hl
        obtain ⟨a', ha', hf⟩ := ih hm
        exact ⟨a', List.mem_cons_of_mem _ ha', hf⟩

theorem operandAddress_lt {address index : Nat} {w : Word} (ha : address < Memory.size)
    (hi : index < (Header.decode w).operandCount) : address + 1 + index < 10008 := by
  have hc := Header.decode_operandCount_le w
  simp only [Header.maxOperands] at hc
  simp only [Memory.size] at ha
  omega

/-- Operands that cannot be read are outside of memory. -/
theorem exists_target_of_operands {m : Memory} {address : Nat} {w : Word}
    (ha : address < Memory.size)
    (ho : operands m address op (Header.decode w) = .error e) :
    ∃ target, e = .outOfBounds address op target ∧
      (target.toInt < 0 ∨ Memory.size ≤ target.toInt) := by
  obtain ⟨index, hi, ho⟩ := exists_of_mapM_eq_error ho
  rw [operand] at ho
  split at ho
  · next hr =>
    cases ho
    refine ⟨_, rfl, .inr ?_⟩
    have hlt := operandAddress_lt ha (List.mem_range.1 hi)
    rw [Memory.read_eq_none_iff] at hr
    rw [Int32.toInt_ofNat_of_lt (by omega)]
    omega
  · split at ho
    · cases ho
    · split at ho
      · next hf =>
        cases ho
        exact ⟨_, rfl, Memory.locate?_eq_none_iff.1 (Memory.locate?_of_fetch? hf)⟩
      · cases ho

/-! ## Runs that fail -/

/-- A run that fails comes to a state in which the next instruction does. -/
theorem exists_step_of_run {σ : Type} {watch : Config → σ → σ} {watcher : σ} {fuel : Nat}
    {r : Run σ} (hr : run capacity watch fuel watcher c = some r) (he : r.error? = some e) :
    ∃ n c', after capacity n c = some c' ∧ step capacity c' = .failed e r.final := by
  induction fuel generalizing watcher c with
  | zero => cases hr
  | succ fuel ih =>
    cases hs : step capacity c with
    | next c₁ shown =>
      rw [run_of_step hs] at hr
      obtain ⟨n, c', ha, hf⟩ := ih hr
      refine ⟨1 + n, c', ?_, hf⟩
      rw [after_add, after, after, Option.bind_some, next?, hs]
      exact ha
    | ended c₁ =>
      rw [run, hs] at hr
      cases hr
      cases he
    | failed e₁ c₁ =>
      rw [run, hs] at hr
      cases hr
      cases he
      exact ⟨0, c, rfl, hs⟩

/-! ## What an error says -/

/-- An error is that of the executable instruction `w`, whose opcode is `op`. -/
def IsOpcodeOf (op : Opcode) (w : Word) : Prop :=
  executable? (Header.decode w).opcode = some op ∧ (Header.decode w).opcode = op.value

/-- What an error says is so of a memory and a stack, where the stack has room for `capacity`
    words. -/
def IsTrue (capacity : Nat) (m : Memory) (stack : List Word) : ExecutionError → Prop
  | .unknownOpcode a w =>
    m.read a = some w ∧
      ((Header.decode w).opcode = Opcode.label.value ∨ 15 ≤ (Header.decode w).opcode)
  | .stackUnderflow a op =>
    ∃ w, m.read a = some w ∧ IsOpcodeOf op w ∧ stack = [] ∧
      (op = .get ∨ op = .branch ∨ op = .set ∧ (Header.decode w).operandCount = 1)
  | .stackOverflow a op =>
    ∃ w, m.read a = some w ∧ IsOpcodeOf op w ∧ stack.length = capacity ∧ pushes op = true
  | .outOfBounds a op target =>
    ∃ w, m.read a = some w ∧ IsOpcodeOf op w ∧ (target.toInt < 0 ∨ Memory.size ≤ target.toInt) ∧
      -- If a jump has read its operands, only a negative address makes it fail.
      ((op = .jump ∨ op = .branch) → ∀ args, operands m a op (Header.decode w) = .ok args →
        target = args.getD 0 0 ∧ target.toInt < 0)

/-- The addresses that are computed for an instruction are numbers of 64 bits, and those of
    its operands are words. -/
structure AddressesFit (address : Nat) (h : Header) : Prop where
  operand : ∀ index < h.operandCount, address + 1 + index < UInt64.size
  toInt_operand : ∀ index < h.operandCount,
    (Int32.ofNat (address + 1 + index)).toInt = address + 1 + index
  next : address + h.width < UInt64.size
  skip : ∀ w : Word, ((address + h.width : Nat) : Int) + w.toInt < UInt64.size

theorem addressesFit {address : Nat} (ha : address < Memory.size) (w : Word) :
    AddressesFit address (Header.decode w) := by
  have hoperand : ∀ index < (Header.decode w).operandCount, address + 1 + index < 10008 :=
    fun index hi => operandAddress_lt ha hi
  have hwidth : address + (Header.decode w).width < 10008 := by
    have hc := Header.decode_operandCount_le w
    rw [Header.maxOperands] at hc
    have ha' : address < 10000 := ha
    rw [Header.width_decode]
    omega
  have hsize : UInt64.size = 18446744073709551616 := rfl
  refine ⟨fun index hi => ?_, fun index hi => ?_, by omega, fun v => ?_⟩
  · have hlt := hoperand index hi
    omega
  · have hlt := hoperand index hi
    rw [Int32.toInt_ofNat_of_lt (by omega)]
    push_cast
    rfl
  · have hv := v.toInt_lt
    omega

/-- The opcode that is not executable is that of labels or none at all. -/
theorem opcode_of_executable? {n : Nat} (hn : executable? n = none) :
    n = Opcode.label.value ∨ 15 ≤ n := by
  rw [executable?, Option.filter_eq_none_iff] at hn
  cases ho : Opcode.ofValue? n with
  | none => exact .inr (Opcode.ofValue?_eq_none_iff.1 ho)
  | some op =>
    have hop := hn op ho
    rw [decide_eq_true_eq, Classical.not_not] at hop
    exact .inl (hop ▸ Opcode.value_ofValue? ho).symm

/-- An instruction that fails leaves the memory as it is, and the stack but for a word that it
    may have popped; what its error says is so then. -/
theorem isTrue_of_step (hl : c.stack.length ≤ capacity) (hs : step capacity c = .failed e c') :
    e.address = c.address ∧ c.address < Memory.size ∧ c'.memory = c.memory ∧
      (c'.stack = c.stack ∨ ∃ top, c.stack = top :: c'.stack) ∧
      IsTrue capacity c'.memory c'.stack e := by
  rw [step] at hs
  split at hs
  · cases hs
  next w hw =>
  have ha : c.address < Memory.size := Memory.lt_size_of_read hw
  rw [executeWord] at hs
  split at hs
  · next hop =>
    cases hs
    exact ⟨rfl, ha, rfl, .inl rfl, hw, opcode_of_executable? hop⟩
  next op hop =>
  have hopcode : IsOpcodeOf op w := ⟨hop, (executable?_eq_some_iff.1 hop).1.symm⟩
  split at hs
  · next he =>
    cases hs
    obtain ⟨target, rfl, htarget⟩ := exists_target_of_operands ha he
    refine ⟨rfl, ha, rfl, .inl rfl, w, hw, hopcode, htarget, fun _ args hargs => ?_⟩
    rw [he] at hargs
    cases hargs
  next args hargs =>
  cases failure_of_execute hl hs with
  | underflow hstack hop' => exact ⟨rfl, ha, rfl, .inl rfl, w, hw, hopcode, hstack, hop'⟩
  | overflow hstack hop' => exact ⟨rfl, ha, rfl, .inl rfl, w, hw, hopcode, hstack, hop'⟩
  | outside target stack hop' htarget hstack =>
    refine ⟨rfl, ha, rfl, hstack, w, hw, hopcode, Memory.locate?_eq_none_iff.1 htarget,
      fun hjump => ?_⟩
    rcases hop' with rfl | rfl <;> simp at hjump
  | negative stack hop' hneg hstack =>
    refine ⟨rfl, ha, rfl, hstack, w, hw, hopcode, .inl hneg, fun _ args' hargs' => ?_⟩
    rw [hargs] at hargs'
    obtain rfl := Except.ok.inj hargs'
    exact ⟨rfl, hneg⟩

/-- Errors tell the truth. If a tick ends with an error, the machine has come to an
    instruction that cannot be executed, at the address that the error says, and that has
    changed nothing, but for a word that it may have popped. What the error says is so of the
    memory and the stack that the tick leaves. In no run is an address computed that is out of
    the range of numbers. -/
theorem errors_tell_the_truth (ctx : Context) (m : Memory) :
    (∀ (σ : Type) (watch : Config → σ → σ) (watcher : σ) (fuel : Nat) (t : Tick σ)
        (e : ExecutionError), tick fuel watch watcher ctx m = some t → t.result = .error e →
      e.address < 10000 ∧ IsTrue ctx.capacity t.memory t.context.stack e ∧
        ∃ n c c', after ctx.capacity n (start ctx m) = some c ∧
          step ctx.capacity c = .failed e c' ∧ c.address = e.address ∧
          t.memory = c'.memory ∧ t.context.stack = c'.stack ∧ c'.memory = c.memory ∧
          (c'.stack = c.stack ∨ ∃ top, c.stack = top :: c'.stack)) ∧
      ∀ n c w, after ctx.capacity n (start ctx m) = some c → c.memory.read c.address = some w →
        AddressesFit c.address (Header.decode w) := by
  refine ⟨fun σ watch watcher fuel t e h he => ?_, fun n c w _ hw => ?_⟩
  · obtain ⟨r, hr, rfl⟩ := Option.map_eq_some_iff.1 h
    have hfailed : r.error? = some e := by
      rw [Run.toTick] at he
      dsimp only at he
      split at he
      · cases he
      · next hf => rw [hf, Except.error.inj he]
    obtain ⟨n, c, ha, hs⟩ := exists_step_of_run hr hfailed
    have hl : c.stack.length ≤ ctx.capacity := length_stack_after (Nat.zero_le _) ha
    obtain ⟨haddress, hlt, hm, hstack, htrue⟩ := isTrue_of_step hl hs
    exact ⟨haddress ▸ hlt, htrue, n, c, r.final, ha, hs, haddress.symm, rfl, rfl, hm, hstack⟩
  · exact addressesFit (Memory.lt_size_of_read hw) w

/-- A program that makes its second instruction one that cannot be executed: where it ends the
    tick at first, it stores the word of a label. -/
def relabelling : Memory :=
  .ofCode [1476395011, 3, 8, 0]

theorem errors_tell_the_truth_relabelling :
    ∃ t, tick 2 (fun _ _ => ()) () (Context.new 0) relabelling = some t ∧
      t.result = .error (.unknownOpcode 3 8) ∧ relabelling.read 3 = some 0 ∧
      t.memory.read 3 = some 8 ∧ (Header.decode 8).opcode = Opcode.label.value := by
  have hruns : ((tick 2 (fun _ _ => ()) () (Context.new 0) relabelling).any fun t =>
      t.result = .error (.unknownOpcode 3 8)) = true := by
    decide +kernel
  obtain ⟨t, ht, he⟩ := (Option.any_eq_true _ _).1 hruns
  have he : t.result = .error (.unknownOpcode 3 8) := of_decide_eq_true he
  obtain ⟨_, ⟨hread, _⟩, _⟩ :=
    (errors_tell_the_truth (Context.new 0) relabelling).1 Unit _ () 2 t _ ht he
  exact ⟨t, ht, he, Memory.read_ofCode (by decide) (by decide), hread, by decide⟩

end Machine

end GridBots
