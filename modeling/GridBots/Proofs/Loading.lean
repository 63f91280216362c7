import GridBots.Bot
import GridBots.Proofs.Decoding
import GridBots.Proofs.Operands
import GridBots.Proofs.Reading
import GridBots.Proofs.Turns

/-!
# Loading programs

Every program can be loaded. It has a word at least, and no more words than there are in the
code zone; its last word is that of an instruction that ends the tick, so that it does not run
into what is in memory behind it (`Source.Stages.getLast?_words`). Its variables are in the
variable zone, one after the other (`Source.Stages.toInt_of_address?`).

So nothing is left of what was in a bot's memory before a program is loaded, and the bot's next
tick is that of a new bot (`program_loads`).
-/

namespace GridBots

open Block (widthOf)
open Layout (emitted)

/-- Pieces that become no words are no operands. -/
theorem operandFlags_of_widthOf_eq_zero {pieces : List Piece} (h : widthOf pieces = 0) :
    operandFlags pieces = [] := by
  cases pieces with
  | nil => rfl
  | cons p rest =>
    obtain ⟨item, line⟩ := p
    have hwidth : item.width = 0 := (Nat.add_eq_zero_iff.1 h).1
    cases item with
    | opening => cases hwidth
    | operation op => cases hwidth
    | operand text immediate => cases hwidth
    | closing => rfl
    | label name => rfl
    | namelessLabel => rfl

namespace Source.Stages

variable {s : Source} {p : Program} (st : s.Stages p)

include st

/-- After the opcode that a body ends with, nothing is written that becomes a word. -/
theorem exists_pieces_of_endsItself (h : s.EndsItself) :
    ∃ pre line post, s.pieces = pre ++ ⟨.operation .halt, line⟩ :: post ∧ widthOf post = 0 := by
  obtain ⟨i, t, hi, hm, he⟩ := h
  have hpieces := st.pieces_of_operation hi hm (by simp)
  have htake : emitted (s.body.take (i + 1)) = widthOf (Piece.ofTokens (s.body.take i)) + 1 := by
    rw [Layout.emitted_eq_widthOf, ← Nat.add_zero (i + 1),
      st.ofTokens_of_operation hi hm (by simp), Block.widthOf_append]
    rfl
  have hwidth : emitted s.body = widthOf (Piece.ofTokens (s.body.take i)) +
      (1 + widthOf (Piece.ofTokens (s.body.drop (i + 1)))) := by
    rw [Layout.emitted_eq_widthOf]
    exact (congrArg widthOf hpieces).trans (Block.widthOf_append _ _)
  exact ⟨_, _, _, hpieces, by omega⟩

/-- The last word of a program is zero: the word of an instruction without operands that ends
    the tick. -/
theorem getLast?_words : p.words.getLast? = some 0 := by
  by_cases ht : st.layout.isTerminated = true
  · obtain ⟨pre, line, post, hpieces, hpost⟩ := st.exists_pieces_of_endsItself
      (st.isTerminated_iff.1 ht)
    obtain ⟨-, w, hw, hdecode⟩ := st.word_of_operation hpieces
    have hlength : p.words.length = widthOf pre + 1 := by
      rw [p.length_words, st.size_eq, if_pos ht, hpieces, Block.widthOf_append, widthOf, hpost]
      rfl
    -- The instruction has no operands, as they would be written after it.
    rw [operandFlags_of_widthOf_eq_zero hpost] at hdecode
    have hzero : w = 0 := by
      rw [← Header.encode_decode w, hdecode]
      rfl
    rw [List.getLast?_eq_getElem?, hlength, Nat.add_sub_cancel, hw, hzero]
  · -- The assembler has added the instruction.
    have hd := st.drop_words_widthOf
    rw [if_neg ht] at hd
    rw [← List.take_append_drop (widthOf s.pieces) p.words, hd, List.getLast?_concat]
    rfl

theorem variableCount_le : p.variableCount ≤ SymbolTable.variableCap := by
  rw [← st.variableCount_eq, st.variableNames_symbols]
  exact st.length_variableNames_le

/-- The variables of a program are the first words of the variable zone. -/
theorem toInt_of_address? {name : String} {w : Word} (h : s.address? name = some w) :
    3000 ≤ w.toInt ∧ w.toInt < 3000 + p.variableCount := by
  obtain ⟨index, hi, rfl⟩ := Source.address?_eq_some_iff.1 h
  have hlt : index < p.variableCount := by
    rw [← st.variableCount_eq, st.variableNames_symbols]
    exact (List.getElem?_eq_some_iff.1 hi).1
  rw [SymbolTable.toInt_variableAddress (Nat.lt_of_lt_of_le hlt st.variableCount_le)]
  omega

/-- The word of an operand that is a variable is the address of the variable. -/
theorem exists_word_of_variable {i : Nat} {t : Token} {name : String} (hi : s.IsOperand i t)
    (hname : s.referent t.operandText = .ofVariable name) :
    ∃ w, p.words[emitted (s.body.take i)]? = some w ∧ s.address? name = some w := by
  obtain ⟨w, hw⟩ := st.exists_word hi.pieces_eq rfl
  refine ⟨w, Layout.emitted_eq_widthOf _ ▸ hw, ?_⟩
  rw [← hw, st.word_of_operand hi.pieces_eq, st.value?_symbols, Source.word?, hname,
    Referent.word?]

end Source.Stages

/-! ## Loading -/

namespace Bot

variable {p : Program} {b : Bot}

/-- A program that fits into memory is all that there is when it has been loaded. -/
theorem read_reload (h : p.size ≤ Memory.size) {a : Nat} (ha : a < Memory.size) :
    (b.reload p).memory.read a = some (p.words[a]?.getD 0) :=
  Memory.read_ofCode (p.length_words.trans_le h) ha

/-- For the tick of a bot, nothing but the room on the stack matters of the machine. -/
theorem runTick_eq_of_capacity {σ : Type} {fuel : Nat} {watch : Machine.Config → σ → σ}
    {watcher : σ} {ctx ctx' : Machine.Context} (h : ctx.capacity = ctx'.capacity) :
    b.runTick fuel watch watcher ctx = b.runTick fuel watch watcher ctx' := by
  rw [runTick_eq, runTick_eq, h]

end Bot

/-- Programs keep to the zones of memory, and can always be loaded. Every program has a word, and
    not more than fit into the code zone; every word of it has a line, and the last one is an
    instruction without operands that ends the tick. Its variables are the first words of the
    variable zone, whether one looks at the names in the tables of the assembler or at the words
    of the operands.

    When a bot, whatever is in its memory, is reloaded with the program, its memory is that of
    a new bot: the words of the program, and zeros after them. Its next tick is then that of the
    new bot, whatever the ticks before have left on the stack. -/
theorem program_loads {text : String} {p : Program} (h : assemble text = .ok p) :
    (1 ≤ p.size ∧ p.size ≤ 2000 ∧ p.words.length = p.size ∧
      ∀ a, (p.lineOf? a).isSome = true ↔ a < p.size) ∧
    (p.words.getLast? = some 0 ∧ Header.decode 0 = Header.new .halt) ∧
    (p.variableCount ≤ 1000 ∧ ∃ s, Source.ofText text = .ok s ∧
      (∀ (st : s.Stages p) name w, st.symbols.addressOf? name = some w →
        3000 ≤ w.toInt ∧ w.toInt < 3000 + p.variableCount) ∧
      ∀ i t name, s.IsOperand i t → s.referent t.operandText = .ofVariable name →
        ∃ w, p.words[emitted (s.body.take i)]? = some w ∧
          3000 ≤ w.toInt ∧ w.toInt < 3000 + p.variableCount) ∧
    ∀ b : Bot,
      (b.reload p).position = b.position ∧
      (∀ a, a < 10000 → (b.reload p).memory.read a = some (p.words[a]?.getD 0)) ∧
      (∀ position, Bot.new p position = (b.reload p).moveTo position) ∧
      ∀ {σ : Type} fuel (watch : Machine.Config → σ → σ) watcher ctx ctx',
        ctx.capacity = ctx'.capacity →
          (b.reload p).runTick fuel watch watcher ctx =
            (Bot.new p b.position).runTick fuel watch watcher ctx' := by
  obtain ⟨s, hs, hp⟩ := except_bind_eq_ok.1 h
  obtain ⟨st⟩ := Source.nonempty_stages_iff.1 hp
  have hsize : p.size ≤ 2000 := st.size_le
  have hlast := st.getLast?_words
  refine ⟨⟨?pos, hsize, p.length_words, fun a => ?line⟩, ⟨hlast, by decide⟩,
    ⟨st.variableCount_le, s, hs, fun st' name w hw => ?table, fun i t name hi hname => ?operand⟩,
    fun b => ⟨rfl, fun a ha => Bot.read_reload (hsize.trans (by decide)) ha, fun _ => rfl,
      fun fuel watch watcher ctx ctx' hctx => Bot.runTick_eq_of_capacity hctx⟩⟩
  case pos =>
    rw [← p.length_words]
    exact List.length_pos_of_ne_nil fun hnil => by simp [hnil] at hlast
  case line => simp [Program.lineOf?, Program.size]
  case table =>
    rw [st'.addressOf?_symbols] at hw
    exact st.toInt_of_address? hw
  case operand =>
    obtain ⟨w, hw, haddress⟩ := st.exists_word_of_variable hi hname
    exact ⟨w, hw, st.toInt_of_address? haddress⟩

/-- An instruction that ends the tick, but has operands, so that another one is added. -/
theorem program_loads_ending :
    ∃ p, assemble "END #a 7\nLABEL last" = .ok p ∧ p.words.length = 4 ∧
      p.words.getLast? = some 0 ∧ p.variableCount = 1 ∧
      ∀ b : Bot, (b.reload p).memory.read 2 = some 7 ∧ (b.reload p).memory.read 4 = some 0 := by
  have hread : Source.ofText "END #a 7\nLABEL last" =
      .ok ⟨#[⟨"END", 1⟩, ⟨"#a", 1⟩, ⟨"7", 1⟩, ⟨"LABEL", 2⟩, ⟨"last", 2⟩], 2⟩ :=
    Source.ofText_eq_ok_iff.2 ⟨by decide, by cbv⟩
  have hok : assemble "END #a 7\nLABEL last" =
      .ok ⟨[⟨1342177280, 1⟩, ⟨3000, 1⟩, ⟨7, 1⟩, ⟨0, 2⟩], 1⟩ := by
    rw [assemble, hread]
    decide +kernel
  obtain ⟨⟨_, _, hlength, _⟩, ⟨hlast, _⟩, _, hloads⟩ := program_loads hok
  refine ⟨_, hok, hlength, hlast, rfl, fun b => ?_⟩
  obtain ⟨_, hread, _⟩ := hloads b
  exact ⟨hread 2 (by decide), hread 4 (by decide)⟩

end GridBots
