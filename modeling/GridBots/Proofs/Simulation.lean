import GridBots.Proofs.Structured

/-!
# Structured code is run as it is evaluated

A program that structured code has become is run as the code is evaluated
(`runs_as_evaluated`): the tick ends with the same result, memory and stack, and shows the
same states to whoever watches, as long as the program does not change its own words.
If it does, the machine still comes to the state in which they are first changed.

The machine follows the evaluation from the address on where code stands, and comes to
the address after it if all of the code is executed (`Code.matches_evaluate`). The proof
is by induction on the code: each instruction is a step (`Code.step_eq_act`), and so is the
condition of a block (`Code.step_eq_branch`).
-/

namespace GridBots

open Block (widthOf)
open Machine (Config Context Leads Run Step Tick seen start step)

namespace Code

variable {capacity : Nat} {words : List Word} {p : Program} {c : Config} {w v : Word}

/-! ## Single instructions -/

/-- The operands of an instruction are read as they are written. -/
theorem mapM_operand_eq_values {m : Memory} {address : Nat} {op : Opcode} {h : Header}
    (hm : p.InPlace m) {arguments : List Argument} {index : Nat}
    (hle : address + 1 + index + arguments.length ≤ p.words.length)
    (hflags : ∀ j a, arguments[j]? = some a → h.isImmediate (index + j) = a.immediate) :
    (List.range' index arguments.length).mapM (Machine.operand m address op h) =
      values m address op arguments (p.words.drop (address + 1 + index)) := by
  induction arguments generalizing index with
  | nil => rfl
  | cons a arguments ih =>
    rw [List.length_cons] at hle
    have hlt : address + 1 + index < p.words.length := by omega
    obtain ⟨w, hw⟩ : ∃ w, p.words[address + 1 + index]? = some w :=
      ⟨_, List.getElem?_eq_getElem hlt⟩
    have hle' : address + 1 + (index + 1) + arguments.length ≤ p.words.length := by omega
    have hrest := ih hle' fun j b hj => by
      rw [Nat.add_assoc, Nat.add_comm 1]
      exact hflags (j + 1) b hj
    -- The first operand is read from the first of the words.
    have himm : h.isImmediate index = a.immediate := hflags 0 a rfl
    have hoperand : Machine.operand m address op h index = a.value m address op w := by
      rw [Machine.operand, hm.read_eq hw, Argument.value]
      exact if_congr (by rw [himm]) rfl rfl
    rw [List.length_cons, List.range'_succ, List.mapM_cons, hoperand, hrest, drop_eq_cons hw,
      values]
    rfl

/-- A step executes an instruction as it is written. -/
theorem step_eq_act {i : Command} (hm : p.InPlace c.memory) (hw : p.words[c.address]? = some w)
    (hd : Header.decode w = Header.ofFlags i.op i.flags)
    (hle : c.address + 1 + i.arguments.length ≤ p.words.length) :
    step capacity c = i.act capacity p.words c := by
  have hcount : (Header.decode w).operandCount = i.arguments.length := by
    rw [hd, Header.operandCount_ofFlags i.length_flags_le, i.length_flags]
  have hop : Machine.executable? (Header.decode w).opcode = some i.op := by
    rw [Machine.executable?_eq_some_iff, hd, Header.opcode_ofFlags]
    exact ⟨rfl, i.op_ne.1⟩
  have hoperands : Machine.operands c.memory c.address i.op (Header.decode w) =
      values c.memory c.address i.op i.arguments (p.words.drop (c.address + 1)) := by
    rw [Machine.operands, hcount, List.range_eq_range']
    refine mapM_operand_eq_values hm hle fun j a hj => ?_
    rw [hd, Header.isImmediate_ofFlags i.length_flags_le, Nat.zero_add, Command.flags,
      List.getD_eq_getElem?_getD, List.getElem?_map, hj]
    rfl
  rw [step, hm.read_eq hw]
  dsimp only
  rw [Machine.executeWord, hop]
  dsimp only
  rw [hoperands, hd]
  rfl

/-- The word after the opcode of a conditional instruction is the operand of it. -/
theorem operands_of_branch (hm : p.InPlace c.memory)
    (hd : Header.decode w = Header.ofFlags .branch [true]) (hv : p.words[c.address + 1]? = some v) :
    Machine.operands c.memory c.address .branch (Header.decode w) = .ok [v] := by
  have hoperand : Machine.operand c.memory c.address .branch (Header.ofFlags .branch [true]) 0 =
      .ok v := by
    rw [Machine.operand, Nat.add_zero, hm.read_eq hv]
    rfl
  have hrange : List.range (Header.ofFlags .branch [true]).operandCount = [0] := by decide
  rw [hd, Machine.operands, hrange, List.mapM_cons, hoperand]
  rfl

/-- A step at a conditional instruction takes a word from the stack, and goes on in the
    block or after it. -/
theorem step_eq_branch (hm : p.InPlace c.memory) (hw : p.words[c.address]? = some w)
    (hd : Header.decode w = Header.ofFlags .branch [true]) (hv : p.words[c.address + 1]? = some v)
    {width : Nat} (hwidth : v.toInt = width) :
    step capacity c =
      match c.stack with
      | [] => .failed (.stackUnderflow c.address .branch) c
      | w :: stack =>
        if w ≠ 0 then .next ⟨c.memory, stack, c.address + 2⟩ none
        else .next ⟨c.memory, stack, c.address + 2 + width⟩ none := by
  have hop : Machine.executable? (Header.decode w).opcode = some .branch := by
    rw [hd]
    decide
  have hnext : c.address + (Header.ofFlags .branch [true]).width = c.address + 2 := by
    rw [Header.width_ofFlags (by decide)]
    rfl
  rw [step, hm.read_eq hw]
  dsimp only
  rw [Machine.executeWord, hop]
  dsimp only
  rw [operands_of_branch hm hd hv, hd]
  dsimp only
  rw [Machine.execute, hnext, Config.pop]
  cases c.stack with
  | nil => rfl
  | cons top stack =>
    dsimp only
    split
    · rfl
    · have htarget : ((c.address + 2 : Nat) : Int) + ([v].getD 0 0).toInt =
          ((c.address + 2 + width : Nat) : Int) := by
        rw [List.getD_cons_zero, hwidth, Int.natCast_add _ width]
      rw [htarget]
      rfl

/-! ## Outcomes that are reached -/

section Outcomes

variable {σ : Type} {watch : Config → σ → σ} {intact : Memory → Bool} {watcher watcher' : σ}
  {c' : Config} {o : Outcome σ} {stop : Nat}

/-- A run from a state comes to an outcome. -/
def Outcome.Reached (capacity : Nat) (watch : Config → σ → σ) (c : Config) (watcher : σ) :
    Outcome σ → Prop
  | .done c' watcher' => Leads capacity watch c watcher c' watcher'
  | .ended c' watcher' => ∃ n, Machine.run capacity watch n watcher c = some ⟨none, c', watcher'⟩
  | .failed e c' watcher' =>
    ∃ n, Machine.run capacity watch n watcher c = some ⟨some e, c', watcher'⟩
  | .modified c' watcher' => Leads capacity watch c watcher c' watcher'

theorem Outcome.Reached.of_leads (hl : Leads capacity watch c watcher c' watcher')
    (h : o.Reached capacity watch c' watcher') : o.Reached capacity watch c watcher := by
  cases o with
  | done _ _ => exact hl.trans h
  | modified _ _ => exact hl.trans h
  | ended _ _ | failed _ _ _ =>
    obtain ⟨_, h⟩ := h
    exact hl.run_eq h

theorem Outcome.reached_ofStep (watcher : σ) :
    (Outcome.ofStep watch intact watcher (step capacity c)).Reached capacity watch c watcher := by
  cases hs : step capacity c with
  | ended c' => exact ⟨1, by rw [Machine.run, hs]⟩
  | failed e c' => exact ⟨1, by rw [Machine.run, hs]⟩
  | next c' shown =>
    rw [ofStep]
    split
    · exact Machine.leads_of_step watcher hs
    · exact Machine.leads_of_step watcher hs

/-- A run comes to the outcome of code. If all of the code is executed, it is then at the
    address `stop`, and the memory is still intact. -/
structure Outcome.Matches (capacity : Nat) (watch : Config → σ → σ) (intact : Memory → Bool)
    (c : Config) (watcher : σ) (stop : Nat) (o : Outcome σ) : Prop where
  reached : o.Reached capacity watch c watcher
  of_done : ∀ c' watcher', o = .done c' watcher' → c'.address = stop ∧ intact c'.memory = true

theorem Outcome.Matches.of_leads (hl : Leads capacity watch c watcher c' watcher')
    (h : o.Matches capacity watch intact c' watcher' stop) :
    o.Matches capacity watch intact c watcher stop :=
  ⟨h.reached.of_leads hl, h.of_done⟩

theorem Outcome.Matches.andThen {middle : Nat} {next : Config → σ → Outcome σ}
    (h : o.Matches capacity watch intact c watcher middle)
    (hnext : ∀ c' watcher', c'.address = middle → intact c'.memory = true →
      (next c' watcher').Matches capacity watch intact c' watcher' stop) :
    (o.andThen next).Matches capacity watch intact c watcher stop := by
  cases o with
  | done c₁ watcher₁ =>
    obtain ⟨ha, hi⟩ := h.of_done c₁ watcher₁ rfl
    exact (hnext c₁ watcher₁ ha hi).of_leads h.reached
  | ended _ _ => exact ⟨h.reached, fun _ _ ho => by cases ho⟩
  | failed _ _ _ => exact ⟨h.reached, fun _ _ ho => by cases ho⟩
  | modified _ _ => exact ⟨h.reached, fun _ _ ho => by cases ho⟩

/-- After an instruction that is no jump comes the next one. -/
theorem address_of_act {i : Command} {shown : Option Config}
    (h : i.act capacity words c = .next c' shown) :
    c'.address = c.address + 1 + i.arguments.length := by
  rw [Command.act] at h
  split at h
  · simp at h
  · rcases Machine.address_of_execute h with ⟨_, ha⟩ | ⟨hj, _⟩ | ⟨hb, _⟩
    · rw [ha, Header.width_ofFlags i.length_flags_le, i.length_flags, Nat.add_assoc, Nat.add_comm 1]
    · exact absurd hj i.op_ne.2.1
    · exact absurd hb i.op_ne.2.2

/-- The machine follows the evaluation of code from the address on where the code stands,
    as long as the memory has the words of the program. -/
theorem matches_evaluate {code : Code} (hintact : ∀ m, intact m = true → p.InPlace m) (c : Config)
    (watcher : σ) (hat : code.At p.words c.address) (hm : intact c.memory = true) :
    (code.evaluate capacity watch p.words intact c watcher).Matches capacity watch intact c watcher
      (c.address + code.width) := by
  induction code generalizing c watcher with
  | done =>
    refine ⟨Leads.refl c watcher, fun c' watcher' h => ?_⟩
    cases h
    exact ⟨rfl, hm⟩
  | command i rest ih =>
    obtain ⟨⟨w, hw, hd⟩, hle, hrest⟩ := hat
    have hact : step capacity c = i.act capacity p.words c := step_eq_act (hintact _ hm) hw hd hle
    -- The instruction is one step, and the rest of the code stands after it.
    have hfirst : (Outcome.ofStep watch intact watcher (i.act capacity p.words c)).Matches capacity
        watch intact c watcher (c.address + 1 + i.arguments.length) := by
      refine ⟨hact ▸ Outcome.reached_ofStep watcher, fun c' watcher' h => ?_⟩
      cases ha : i.act capacity p.words c with
      | ended _ => rw [ha] at h; cases h
      | failed _ _ => rw [ha] at h; cases h
      | next c₁ shown =>
        rw [ha, Outcome.ofStep] at h
        split at h
        · next hi =>
          cases h
          exact ⟨address_of_act ha, hi⟩
        · simp at h
    refine hfirst.andThen fun c' watcher' ha hi => ?_
    have hnext := ih c' watcher' (ha ▸ hrest) hi
    rw [ha] at hnext
    rwa [width, ← Nat.add_assoc, ← Nat.add_assoc]
  | conditional keyword body rest ihbody ihrest =>
    obtain ⟨⟨w, hw, hd⟩, ⟨v, hv, hwidth⟩, hbody, hrest⟩ := hat
    have hstep : step capacity c = _ := step_eq_branch (hintact _ hm) hw hd hv hwidth
    rw [evaluate]
    cases hs : c.stack with
    | nil =>
      rw [hs] at hstep
      exact ⟨⟨1, by rw [Machine.run, hstep]⟩, by simp⟩
    | cons top stack =>
      rw [hs] at hstep
      dsimp only at hstep ⊢
      have hafter : ∀ c' watcher', c'.address = c.address + 2 + body.width →
          intact c'.memory = true →
          (rest.evaluate capacity watch p.words intact c' watcher').Matches capacity watch intact c'
            watcher' (c.address + (2 + body.width + rest.width)) := by
        intro c' watcher' ha hi
        have hnext := ihrest c' watcher' (ha ▸ hrest) hi
        rw [ha] at hnext
        rwa [Nat.add_assoc 2, ← Nat.add_assoc, ← Nat.add_assoc]
      refine Outcome.Matches.andThen ?_ hafter
      -- Either the block is executed, or the machine goes on after it.
      by_cases htop : top ≠ 0
      · rw [if_pos htop] at hstep ⊢
        have hinner := ihbody ⟨c.memory, stack, c.address + 2⟩ watcher hbody hm
        exact hinner.of_leads (Machine.leads_of_step watcher hstep)
      · rw [if_neg htop] at hstep ⊢
        refine ⟨Machine.leads_of_step watcher hstep, fun c' watcher' h => ?_⟩
        cases h
        exact ⟨rfl, hm⟩

end Outcomes

end Code

/-! ## Ticks -/

/-- The machine ends after the words that a source becomes, where the assembler has added
    an instruction for that, or a zero follows, which is one. -/
theorem Source.Stages.step_eq_ended {s : Source} {p : Program} (st : s.Stages p) {capacity : Nat}
    {c : Config} (hm : p.Loaded c.memory) (ha : c.address = widthOf s.pieces) :
    step capacity c = .ended c := by
  have hsize := st.size_eq
  have hw : ∃ w, c.memory.read c.address = some w ∧ Header.decode w = Header.new .halt := by
    by_cases ht : st.layout.isTerminated = true
    · -- The source ends itself, so that this is the zero after the program.
      rw [if_pos ht, Nat.add_zero, ← ha] at hsize
      refine ⟨0, ?_, by decide⟩
      rw [hm _ (Nat.le_of_eq hsize.symm), List.getElem?_eq_none (by rw [p.length_words, hsize])]
      rfl
    · have hd := st.drop_words_widthOf
      rw [if_neg ht, ← ha] at hd
      have hword : p.words[c.address]? = some (Header.new .halt).encode := by
        rw [← Nat.add_zero c.address, ← List.getElem?_drop, hd]
        rfl
      exact ⟨_, hm.inPlace.read_eq hword, by decide⟩
  obtain ⟨w, hw, hd⟩ := hw
  rw [step, hw]
  dsimp only
  rw [hd]
  rfl

/-- The system registers are cleared without harm to a program that is short enough. -/
theorem Program.Loaded.clearSystem {p : Program} {m : Memory} (hm : p.Loaded m)
    (hsize : p.size < Memory.systemZone.start) : p.Loaded m.clearSystem := by
  intro a ha
  have hzone : ¬a ∈ Memory.systemZone := fun hz =>
    absurd (Nat.lt_of_le_of_lt ha hsize) (Nat.not_lt.2 hz.1)
  rw [Memory.read_clearSystem, hm a ha, Option.map_some, if_neg hzone]

/-- More steps than a run takes make no difference to the tick. -/
theorem Machine.tick_eq_of_run {σ : Type} {watch : Config → σ → σ} {watcher : σ} {ctx : Context}
    {m : Memory} {n fuel : Nat} {r : Run σ}
    (h : Machine.run ctx.capacity watch n watcher (start ctx m) = some r) (hn : n ≤ fuel) :
    Machine.tick fuel watch watcher ctx m = some (r.toTick ctx.capacity) := by
  obtain ⟨extra, rfl⟩ := Nat.exists_eq_add_of_le hn
  rw [Machine.tick, Machine.run_add h extra, Option.map_some]

/-- Two ticks that start in the same way are the same, whatever number of steps they may
    take. -/
theorem Machine.tick_unique {σ : Type} {watch : Config → σ → σ} {watcher : σ} {ctx : Context}
    {m : Memory} {n n' : Nat} {t t' : Tick σ} (h : tick n watch watcher ctx m = some t)
    (h' : tick n' watch watcher ctx m = some t') : t = t' := by
  obtain ⟨r, hr, rfl⟩ := Option.map_eq_some_iff.1 h
  obtain ⟨r', hr', rfl⟩ := Option.map_eq_some_iff.1 h'
  have hlong := run_add hr n'
  rw [Nat.add_comm, run_add hr' n] at hlong
  rw [Option.some.inj hlong]

/-- What the evaluation of a whole program comes to, a run comes to. -/
theorem Source.Stages.exists_run {s : Source} {p : Program} (st : s.Stages p) {capacity : Nat}
    {σ : Type} {watch : Config → σ → σ} {c : Config} {watcher : σ} {o : Code.Outcome σ}
    (h : o.Matches capacity watch (fun m => p.Loaded m) c watcher (widthOf s.pieces))
    (hmod : o.isModified = false) :
    ∃ r n, o.run? = some r ∧ Machine.run capacity watch n watcher c = some r := by
  cases o with
  | done c' watcher' =>
    obtain ⟨ha, hm⟩ := h.of_done c' watcher' rfl
    have hend : step capacity c' = .ended c' := st.step_eq_ended (of_decide_eq_true hm) ha
    have hrun : Machine.run capacity watch 1 watcher' c' = some ⟨none, c', watcher'⟩ := by
      rw [Machine.run, hend]
    obtain ⟨n, hn⟩ := h.reached.run_eq hrun
    exact ⟨_, n, rfl, hn⟩
  | ended c' watcher' | failed e c' watcher' =>
    obtain ⟨n, hn⟩ := h.reached
    exact ⟨_, n, rfl, hn⟩
  | modified c' watcher' => cases hmod

/-- Structured code is run as it is evaluated. The evaluation starts with the state that
    the machine starts a tick with, and goes on until it has changed a word of the program,
    or the zero after it. If it never does, the tick comes to what the evaluation comes to.
    If it does, the machine comes to the state in which that has happened. -/
theorem runs_as_evaluated {text : String} {code : Code} {p : Program}
    (hw : Source.textWords text = code.texts) (h : assemble text = .ok p)
    (hsize : p.size < Memory.systemZone.start) (ctx : Context) (m : Memory) (hm : p.Loaded m)
    {σ : Type} (watch : Config → σ → σ) (watcher : σ) :
    ((code.evaluate ctx.capacity watch p.words (fun m => p.Loaded m) (start ctx m)
          watcher).isModified = false →
        ∃ r n, (code.evaluate ctx.capacity watch p.words (fun _ => true) (start ctx m)
            watcher).run? = some r ∧
          ∀ fuel, n ≤ fuel →
            Machine.tick fuel watch watcher ctx m = some (r.toTick ctx.capacity)) ∧
      ∀ c watcher', code.evaluate ctx.capacity watch p.words (fun m => p.Loaded m) (start ctx m)
          watcher = .modified c watcher' →
        Leads ctx.capacity watch (start ctx m) watcher c watcher' := by
  obtain ⟨s, hs, hp⟩ := except_bind_eq_ok.1 h
  obtain ⟨st⟩ := Source.nonempty_stages_iff.1 hp
  -- All of the code stands from the address 0 on.
  have hwritten := Source.written_pieces ((Source.texts_of_ofText hs).trans hw)
  have hpieces : s.pieces = [] ++ (s.pieces ++ []) := (List.append_nil _).symm
  have hat : code.At p.words 0 := st.at_of_written hwritten hpieces rfl
  have hmatches : (code.evaluate ctx.capacity watch p.words (fun m => p.Loaded m) (start ctx m)
      watcher).Matches ctx.capacity watch (fun m => p.Loaded m) (start ctx m) watcher
        ((start ctx m).address + code.width) :=
    Code.matches_evaluate (fun m hm => (of_decide_eq_true hm).inPlace) (start ctx m) watcher hat
      (decide_eq_true (hm.clearSystem hsize))
  refine ⟨fun hmod => ?_, fun c watcher' ho => ?_⟩
  · have hstop : (start ctx m).address + code.width = widthOf s.pieces :=
      (Nat.zero_add _).trans hwritten.widthOf_eq.symm
    rw [hstop] at hmatches
    obtain ⟨r, n, hr, hrun⟩ := st.exists_run hmatches hmod
    rw [← Code.evaluate_eq_of_isModified hmod] at hr
    exact ⟨r, n, hr, fun fuel hn => Machine.tick_eq_of_run hrun hn⟩
  · have hreached := hmatches.reached
    rw [ho] at hreached
    exact hreached

/-- Code with a block in a block, and with one at the end in which the tick is ended. -/
def Code.nested : Code :=
  .command { mnemonic := "PUSH", op := .push, arguments := [⟨"1", true, by decide⟩] } <|
  .command { mnemonic := "PUSH", op := .push, arguments := [⟨"0", true, by decide⟩] } <|
  .conditional ⟨"IF", by decide⟩
    (.command { mnemonic := "PUSH", op := .push, arguments := [⟨"7", true, by decide⟩] } <|
      .conditional ⟨"IF", by decide⟩ .done .done) <|
  .conditional ⟨"IF", by decide⟩
    (.command { mnemonic := "SET", op := .set, arguments := [⟨"MOVE", true, by decide⟩,
        ⟨"RIGHT", true, by decide⟩] } <|
      .command { mnemonic := "END", op := .halt, arguments := [] } .done) .done

/-- The text that the nested code is written as. -/
def Code.nestedText : String :=
  "PUSH #1 PUSH #0 IF \x7b PUSH #7 IF \x7b \x7d \x7d\nIF \x7b SET #MOVE #RIGHT END \x7d"

/-- The program that the nested code becomes. -/
def Program.structured : Program where
  cells := [⟨805306373, 1⟩, ⟨1, 1⟩, ⟨805306373, 1⟩, ⟨0, 1⟩, ⟨805306375, 1⟩, ⟨4, 1⟩,
    ⟨805306373, 1⟩, ⟨7, 1⟩, ⟨805306375, 1⟩, ⟨0, 1⟩, ⟨805306375, 2⟩, ⟨4, 2⟩, ⟨1476395011, 2⟩,
    ⟨2000, 2⟩, ⟨2, 2⟩, ⟨0, 2⟩]
  variableCount := 0

theorem runs_as_evaluated_nested :
    Source.textWords Code.nestedText = Code.nested.texts ∧
      assemble Code.nestedText = .ok Program.structured ∧
      Program.structured.size < Memory.systemZone.start ∧
      Program.structured.Loaded (Memory.ofCode Program.structured.words) ∧
      ∃ r n, (Code.nested.evaluate 256 (fun _ _ => ()) Program.structured.words (fun _ => true)
          (start (Context.new 256) (Memory.ofCode Program.structured.words)) ()).run? = some r ∧
        (r.toTick 256).result = .ok ⟨1, 0⟩ ∧
        ∀ fuel, n ≤ fuel → Machine.tick fuel (fun _ _ => ()) () (Context.new 256)
          (Memory.ofCode Program.structured.words) = some (r.toTick 256) := by
  have hw : Source.textWords Code.nestedText = Code.nested.texts := by decide +kernel
  have ha : assemble Code.nestedText = .ok Program.structured := by decide +kernel
  have hm : Program.structured.Loaded (Memory.ofCode Program.structured.words) :=
    Program.loaded_ofCode (by decide)
  have hmod : (Code.nested.evaluate 256 (fun _ _ => ()) Program.structured.words
      (fun m => Program.structured.Loaded m)
      (start (Context.new 256) (Memory.ofCode Program.structured.words)) ()).isModified =
        false := by
    decide +kernel
  have hresult : ((Code.nested.evaluate 256 (fun _ _ => ()) Program.structured.words (fun _ => true)
      (start (Context.new 256) (Memory.ofCode Program.structured.words)) ()).run?.all
        fun r => (r.toTick 256).result = .ok ⟨1, 0⟩) = true := by
    decide +kernel
  obtain ⟨r, n, hr, htick⟩ := (runs_as_evaluated hw ha (by decide) (Context.new 256) _ hm
    (fun _ _ => ()) ()).1 hmod
  have hright := (Option.all_eq_true _ _).1 hresult r hr
  exact ⟨hw, ha, by decide, hm, r, n, hr, of_decide_eq_true hright, htick⟩

/-- Code that overwrites its second instruction with a word that ends the tick. -/
def Code.overwriting : Code :=
  .command { mnemonic := "SET", op := .set, arguments := [⟨"3", true, by decide⟩,
    ⟨"0", true, by decide⟩] } <|
  .command { mnemonic := "SET", op := .set, arguments := [⟨"MOVE", true, by decide⟩,
    ⟨"UP", true, by decide⟩] } .done

/-- The program that the overwriting code becomes. -/
def Program.overwriting : Program where
  cells := [⟨1476395011, 1⟩, ⟨3, 1⟩, ⟨0, 1⟩, ⟨1476395011, 2⟩, ⟨2000, 2⟩, ⟨1, 2⟩, ⟨0, 3⟩]
  variableCount := 0

/-- Code that changes words of its program need not be run as it is evaluated: the machine
    ends the tick at once, where the evaluation goes on and asks for a move. -/
theorem runs_otherwise_overwriting :
    Source.textWords "SET #3 #0\nSET #MOVE #UP" = Code.overwriting.texts ∧
      assemble "SET #3 #0\nSET #MOVE #UP" = .ok Program.overwriting ∧
      Program.overwriting.size ≤ 1999 ∧
      (∀ a ≤ 2000, (Memory.ofCode Program.overwriting.words).read a =
        some (Program.overwriting.words[a]?.getD 0)) ∧
      ∃ r, (Code.overwriting.evaluate 256 (fun _ _ => ()) Program.overwriting.words (fun _ => true)
          (start (Context.new 256) (Memory.ofCode Program.overwriting.words)) ()).run? = some r ∧
        (r.toTick 256).result = .ok ⟨0, -1⟩ ∧
        ∀ fuel, Machine.tick fuel (fun _ _ => ()) () (Context.new 256)
          (Memory.ofCode Program.overwriting.words) ≠ some (r.toTick 256) := by
  have hresult : ((Code.overwriting.evaluate 256 (fun _ _ => ()) Program.overwriting.words
      (fun _ => true)
      (start (Context.new 256) (Memory.ofCode Program.overwriting.words)) ()).run?.any fun r =>
        (r.toTick 256).result = .ok ⟨0, -1⟩) = true := by
    decide +kernel
  have htick : ((Machine.tick 2 (fun _ _ => ()) () (Context.new 256)
      (Memory.ofCode Program.overwriting.words)).any fun t => t.result = .ok ⟨0, 0⟩) = true := by
    decide +kernel
  obtain ⟨r, hr, hup⟩ := (Option.any_eq_true _ _).1 hresult
  obtain ⟨t, ht, hnone⟩ := (Option.any_eq_true _ _).1 htick
  refine ⟨by decide +kernel, by decide +kernel, by decide, fun a ha => ?_, r, hr,
    of_decide_eq_true hup, fun fuel hf => ?_⟩
  · exact Memory.read_ofCode (by decide) (Nat.lt_of_le_of_lt ha (by decide))
  · rw [Machine.tick_unique ht hf, of_decide_eq_true hup] at hnone
    exact absurd hnone (by decide)

end GridBots
