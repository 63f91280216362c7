import GridBots.Proofs.Symbols
import GridBots.Proofs.Widths

/-!
# The stages of assembly

A source that becomes a program goes through all stages of assembly without a fault
(`Source.Stages`, `nonempty_stages_iff`). The tokens after its aliases are its
*body*. The words of the program come one by one from the slots of the finished
layout, each being what its slot is for in the last table of symbols
(`Stages.getElem?_words`), and these slots are those of the layout of the body, after
which an instruction that ends the tick may follow (`Stages.slots_finished`).
-/

namespace GridBots

/-- The tokens after the aliases at the beginning. -/
def Token.afterAliases : List Token → List Token
  | d :: name :: value :: rest =>
    if d.isAlias then afterAliases rest else d :: name :: value :: rest
  | tokens => tokens

/-- Aliases stand before all other tokens. -/
theorem Token.afterAliases_suffix (tokens : List Token) : afterAliases tokens <:+ tokens := by
  induction tokens using afterAliases.induct with
  | case1 d name value rest hd ih =>
    rw [afterAliases, if_pos hd]
    exact ih.trans (List.suffix_append [d, name, value] rest)
  | case2 d name value rest hd => exact ⟨[], by rw [afterAliases, if_neg hd, List.nil_append]⟩
  | case3 tokens ht =>
    rw [afterAliases.eq_def]
    split
    · next d name value rest => exact absurd rfl (ht d name value rest)
    · exact List.suffix_refl _

/-- At the end of a layout, an instruction that ends the tick is added, unless there is one. -/
theorem Layout.slots_terminate {l finished : Layout} {lineCount : Nat}
    (h : l.terminate lineCount = .ok finished) :
    finished.slots = l.slots ++
      if l.isTerminated then [] else [(.instruction (Header.new .halt), l.endLine lineCount)] := by
  rw [terminate, add] at h
  split at h
  · next ht => rw [← Except.ok.inj h, if_pos ht, List.append_nil]
  · next ht =>
    split at h
    · cases h
    · rw [← Except.ok.inj h, if_neg ht, slots_append]
      rfl

/-- A layout can be ended if there is room for one more place, or it ends by itself. -/
theorem Layout.exists_terminate {l : Layout} (h : l.isTerminated = false → l.length < cap)
    (lineCount : Nat) : ∃ finished, l.terminate lineCount = .ok finished := by
  rw [terminate, add]
  by_cases ht : l.isTerminated = true
  · exact ⟨l, if_pos ht⟩
  · rw [if_neg ht, if_neg (Nat.not_le.2 (h (Bool.eq_false_iff.2 ht)))]
    exact ⟨_, rfl⟩

namespace Source

/-- The tokens of a source after its aliases. -/
def body (s : Source) : List Token :=
  Token.afterAliases s.tokens.toList

/-- The pieces of the body of a source. -/
abbrev pieces (s : Source) : List Piece :=
  Piece.ofTokens s.body

/-- What the stages of assembly come to for a source that becomes a program. -/
structure Stages (s : Source) (p : Program) where
  /-- The table after the aliases are defined. -/
  aliases : SymbolTable
  blocks : List Block
  layout : Layout
  /-- The table after the labels are defined. -/
  labels : SymbolTable
  /-- The layout with an instruction at its end that ends the tick. -/
  finished : Layout
  /-- The table after all words are written. -/
  symbols : SymbolTable
  defineAliases_eq : SymbolTable.empty.defineAliases s.tokens.toList = .ok (aliases, s.body)
  find?_isAlias : s.body.find? Token.isAlias = none
  find_eq : Block.find s.pieces = .ok blocks
  place_eq : Layout.place s.pieces blocks = .ok layout
  bindLabels_eq : layout.bindLabels 0 aliases = .ok labels
  terminate_eq : layout.terminate s.lineCount = .ok finished
  write_eq : labels.write Program.cap finished.slots = .ok (p.cells, symbols)
  variableCount_eq : symbols.variableNames.length = p.variableCount

theorem afterAliases_of_defineAliases {t t' : SymbolTable} {tokens body : List Token}
    (h : t.defineAliases tokens = .ok (t', body)) : body = Token.afterAliases tokens := by
  induction t, tokens using SymbolTable.defineAliases.induct with
  | case1 t => cases h; rfl
  | case2 t d hd name value rest hn ih =>
    rw [SymbolTable.defineAliases, if_pos hd, if_pos hn, except_bind_eq_ok] at h
    obtain ⟨t₁, _, h⟩ := h
    rw [Token.afterAliases, if_pos hd]
    exact ih t₁ h
  | case3 t d hd name value rest hn =>
    rw [SymbolTable.defineAliases, if_pos hd, if_neg hn] at h
    simp at h
  | case4 t d rest hd hr =>
    rw [SymbolTable.defineAliases.eq_def] at h
    simp only [hd, if_true] at h
    simp at h
  | case5 t d rest hd =>
    rw [SymbolTable.defineAliases.eq_def] at h
    simp only [hd] at h
    cases h
    rw [Token.afterAliases.eq_def]
    split
    · next h' =>
      cases h'
      rw [if_neg hd]
    · rfl

/-- A source becomes a program exactly if it goes through all stages. -/
theorem nonempty_stages_iff {s : Source} {p : Program} :
    s.assemble = .ok p ↔ Nonempty (s.Stages p) := by
  constructor
  · intro h
    rw [assemble, except_bind_eq_ok] at h
    obtain ⟨⟨aliases, tokens⟩, ha, h⟩ := h
    obtain rfl := afterAliases_of_defineAliases ha
    dsimp only at h
    split at h
    · simp at h
    next hb =>
    obtain ⟨blocks, hf, h⟩ := except_bind_eq_ok.1 h
    obtain ⟨layout, hp, h⟩ := except_bind_eq_ok.1 h
    obtain ⟨labels, hl, h⟩ := except_bind_eq_ok.1 h
    obtain ⟨finished, ht, h⟩ := except_bind_eq_ok.1 h
    obtain ⟨⟨cells, symbols⟩, hw, h⟩ := except_bind_eq_ok.1 h
    cases h
    exact ⟨⟨aliases, blocks, layout, labels, finished, symbols, ha, hb, hf, hp, hl, ht, hw, rfl⟩⟩
  · rintro ⟨st⟩
    obtain ⟨cells, count⟩ := p
    rw [assemble, except_bind_eq_ok]
    refine ⟨_, st.defineAliases_eq, ?_⟩
    dsimp only
    rw [st.find?_isAlias]
    refine except_bind_eq_ok.2 ⟨_, st.find_eq, except_bind_eq_ok.2 ⟨_, st.place_eq, ?_⟩⟩
    refine except_bind_eq_ok.2 ⟨_, st.bindLabels_eq, except_bind_eq_ok.2 ⟨_, st.terminate_eq, ?_⟩⟩
    refine except_bind_eq_ok.2 ⟨_, st.write_eq, ?_⟩
    exact congrArg _ (congrArg _ st.variableCount_eq)

namespace Stages

variable {s : Source} {p : Program} (st : s.Stages p)

include st in
theorem blockFault?_eq_none : Block.fault? s.pieces = none :=
  (Block.find_eq_ok_iff.1 st.find_eq).1

theorem blocks_eq : Block.ofPieces 0 s.pieces = st.blocks :=
  (Block.find_eq_ok_iff.1 st.find_eq).2

theorem layoutFault?_eq_none : Layout.fault? s.pieces st.blocks.length = none :=
  (Layout.place_eq_ok_iff.1 st.place_eq).1

theorem layout_eq : Layout.ofPieces (Layout.widths s.pieces) s.pieces = st.layout := by
  rw [Layout.widths, st.blocks_eq]
  exact (Layout.place_eq_ok_iff.1 st.place_eq).2

theorem length_slots_layout : st.layout.slots.length = Block.widthOf s.pieces := by
  rw [← st.layout_eq, Layout.length_slots_ofPieces]

theorem slots_finished :
    st.finished.slots = st.layout.slots ++
      if st.layout.isTerminated then []
      else [(.instruction (Header.new .halt), st.layout.endLine s.lineCount)] :=
  Layout.slots_terminate st.terminate_eq

theorem unreserved_labels : st.labels.Unreserved :=
  (SymbolTable.unreserved_empty.defineAliases st.defineAliases_eq).bindLabels st.bindLabels_eq

theorem forall₂_cells :
    List.Forall₂ (fun s c => st.symbols.word? s.1 = some c.word ∧ s.2 = c.line)
      st.finished.slots p.cells :=
  (SymbolTable.write_forall₂ st.unreserved_labels st.write_eq).2

include st in
theorem size_le : p.size ≤ Program.cap :=
  SymbolTable.length_write_le st.write_eq

theorem length_words_eq : p.words.length = st.finished.slots.length := by
  rw [Program.length_words, Program.size]
  exact st.forall₂_cells.length_eq.symm

/-- A program has as many words as its body is wide, and one more if it is terminated by the
    assembler. -/
theorem size_eq : p.size = Block.widthOf s.pieces + if st.layout.isTerminated then 0 else 1 := by
  rw [← p.length_words, st.length_words_eq, st.slots_finished, List.length_append,
    st.length_slots_layout]
  split <;> rfl

/-- The words of a program are those that the slots are for, and come from their lines. -/
theorem exists_getElem?_cells {a line : Nat} {slot : Slot}
    (h : st.finished.slots[a]? = some (slot, line)) :
    ∃ w, st.symbols.word? slot = some w ∧ p.cells[a]? = some ⟨w, line⟩ := by
  obtain ⟨ha, hs⟩ := List.getElem?_eq_some_iff.1 h
  have hl := st.forall₂_cells.length_eq
  have hc := (List.forall₂_iff_get.1 st.forall₂_cells).2 a ha (hl ▸ ha)
  rw [List.get_eq_getElem, hs] at hc
  obtain ⟨hw, rfl⟩ := hc
  exact ⟨_, hw, List.getElem?_eq_getElem (hl ▸ ha)⟩

theorem getElem?_words {a line : Nat} {slot : Slot}
    (h : st.finished.slots[a]? = some (slot, line)) : p.words[a]? = st.symbols.word? slot := by
  obtain ⟨w, hw, hc⟩ := st.exists_getElem?_cells h
  rw [Program.words, List.getElem?_map, hc, hw]
  rfl

theorem getElem?_finished {a : Nat} {slot : Slot × Nat} (h : st.layout.slots[a]? = some slot) :
    st.finished.slots[a]? = some slot := by
  rw [st.slots_finished, List.getElem?_append_left (List.getElem?_eq_some_iff.1 h).1, h]

theorem getElem?_words_of_layout {a line : Nat} {slot : Slot}
    (h : st.layout.slots[a]? = some (slot, line)) : p.words[a]? = st.symbols.word? slot :=
  st.getElem?_words (st.getElem?_finished h)

variable {pre post : List Piece} {line : Nat}

/-- The word of an operand is the number that it is, or that its name stands for. -/
theorem word_of_operand {text : String} {immediate : Bool}
    (h : s.pieces = pre ++ ⟨.operand text immediate, line⟩ :: post) :
    p.words[Block.widthOf pre]? = st.symbols.value? text := by
  have hs := Layout.getElem?_slots_operand pre post line text immediate
  rw [← h, st.layout_eq] at hs
  exact st.getElem?_words_of_layout hs

include st in
/-- The word of a brace that opens a block is the number of words in the block. -/
theorem word_of_opening (h : s.pieces = pre ++ ⟨.opening, line⟩ :: post) :
    p.words[Block.widthOf pre]? = some (Int32.ofNat (Block.widthOf (Block.inside 0 post))) := by
  have hs := Layout.getElem?_slots_opening pre post line
  rw [← h, st.layout_eq] at hs
  exact st.getElem?_words_of_layout hs

end Stages

/-- A source with a block in a block, and a label in front of the inner one that is
    jumped to from outside. -/
def nested : Source where
  tokens := #[⟨"IF", 1⟩, ⟨"\x7b", 1⟩, ⟨"PUSH", 1⟩, ⟨"#a", 1⟩, ⟨"LABEL", 1⟩, ⟨"b", 1⟩, ⟨"IF", 1⟩,
    ⟨"\x7b", 1⟩, ⟨"\x7d", 1⟩, ⟨"\x7d", 1⟩, ⟨"JUMP", 1⟩, ⟨"#b", 1⟩]
  lineCount := 1

end Source

/-- The program that the source with nested blocks becomes. -/
def Program.nested : Program where
  cells := [⟨805306375, 1⟩, ⟨4, 1⟩, ⟨805306373, 1⟩, ⟨3000, 1⟩, ⟨805306375, 1⟩, ⟨0, 1⟩,
    ⟨805306374, 1⟩, ⟨4, 1⟩, ⟨0, 2⟩]
  variableCount := 1

theorem Source.assemble_nested : Source.nested.assemble = .ok Program.nested := by decide +kernel

end GridBots
