import GridBots.Proofs.Decoding
import GridBots.Proofs.Lines
import GridBots.Proofs.Literals

/-!
# Lines of words

Every word of a program is that of a token, and of one token only (`Source.Emits`,
`Stages.exists_emits`, `Emits.emitted_lt`), except for the word of an instruction that the assembler
adds at the end. The line of a word is that of its token, and the instruction at the end is on the
line after that of the last word, or after all lines if there are no other words
(`Source.WordLine`).

That is what the lines in a program are (`lines_of_words`). As the tokens of a text have the numbers
of the lines they stand on, whatever else stands on these lines or in between, lines do not decrease
from word to word.
-/

namespace GridBots

open Block (widthOf tokenCount)
open Layout (emitted)

/-! ## Tokens that become words -/

namespace Source

/-- The token of a body with an index becomes a word: it is neither a label, nor the name of one,
    nor a brace that closes a block. It is thus an opcode, an operand or a brace that opens a
    block. -/
structure Emits (s : Source) (i : Nat) (t : Token) : Prop where
  getElem?_eq : s.body[i]? = some t
  text_ne : t.text ≠ Token.blockClose
  not_isLabel : ¬t.isLabel = true
  not_isLabel_before : ∀ j d, j + 1 = i → s.body[j]? = some d → ¬d.isLabel = true

/-- The word `w` is what the token of a body with an index says: the header of an instruction with
    its opcode, the number of words of the block that it opens, or what it stands for as an
    operand. -/
def Says (s : Source) (i : Nat) (t : Token) (w : Word) : Prop :=
  match Opcode.ofMnemonic? t.text with
  | some op => (Header.decode w).opcode = op.value
  | none =>
    if t.text = Token.blockOpen then
      ∃ close, Token.closing? 0 (i + 1) (s.body.drop (i + 1)) = some close ∧
        emitted (s.body.take i) + 1 + w.toInt = emitted (s.body.take close)
    else s.word? t.operandText = some w

/-- No token after one becomes a word. -/
def EmitsLast (s : Source) (i : Nat) (t : Token) : Prop :=
  s.Emits i t ∧ ∀ j t', s.Emits j t' → j ≤ i

/-- Which words there are, given by their addresses, and which lines they come from, if the text has
    as many lines as given. -/
inductive WordLine (s : Source) (lineCount : Nat) : (address line : Nat) → Prop
  | token {i : Nat} {t : Token} : s.Emits i t →
      WordLine s lineCount (emitted (s.body.take i)) t.line
  | afterLast {i : Nat} {t : Token} : ¬s.EndsItself → s.EmitsLast i t →
      WordLine s lineCount (emitted s.body) (t.line + 1)
  | afterLines : ¬s.EndsItself → (∀ i t, ¬s.Emits i t) →
      WordLine s lineCount (emitted s.body) (lineCount + 1)

end Source

/-- Of two pieces, the one with fewer tokens before it comes before the other. -/
theorem Block.exists_between {pre post pre' post' : List Piece} {q q' : Piece}
    (h : pre ++ q :: post = pre' ++ q' :: post') (hlt : tokenCount pre < tokenCount pre') :
    ∃ between, pre' = pre ++ q :: between := by
  rcases List.append_eq_append_iff.1 h with ⟨m, rfl, hm⟩ | ⟨m, rfl, _⟩
  · cases m with
    | nil =>
      rw [List.append_nil] at hlt
      exact absurd hlt (Nat.lt_irrefl _)
    | cons q'' m => exact ⟨m, by rw [(List.cons.inj hm).1]⟩
  · rw [tokenCount_append] at hlt
    exact absurd hlt (Nat.not_lt.2 (Nat.le_add_right _ _))

namespace Piece

theorem line_ofToken (t : Token) : (ofToken t).line = t.line := by
  rcases ofToken_cases t with ⟨_, h⟩ | ⟨_, h⟩ | ⟨_, _, ⟨_, _, h⟩ | ⟨_, h⟩⟩ <;> rw [h]

theorem width_ofToken_eq_one_iff (t : Token) :
    (ofToken t).item.width = 1 ↔ t.text ≠ Token.blockClose := by
  rcases ofToken_cases t with ⟨ho, h⟩ | ⟨hc, h⟩ | ⟨_, hc, ⟨_, _, h⟩ | ⟨_, h⟩⟩ <;> rw [h]
  · exact iff_of_true rfl (by rw [ho]; decide)
  · exact iff_of_false Nat.zero_ne_one (not_not_intro hc)
  · exact iff_of_true rfl hc
  · exact iff_of_true rfl hc

end Piece

/-- A piece that becomes a word has a slot, with its line. -/
theorem Layout.exists_slot (pre post : List Piece) {q : Piece} (hq : q.item.width = 1) :
    ∃ slot, (ofPieces (widths (pre ++ q :: post)) (pre ++ q :: post)).slots[widthOf pre]? =
      some (slot, q.line) := by
  obtain ⟨item, line⟩ := q
  cases item with
  | opening => exact ⟨_, getElem?_slots_opening pre post line⟩
  | operation op => exact ⟨_, getElem?_slots_operation pre post line op⟩
  | operand text immediate => exact ⟨_, getElem?_slots_operand pre post line text immediate⟩
  | closing | label _ | namelessLabel => cases hq

namespace Source

variable {s : Source} {p : Program} {i j : Nat} {t t' : Token}

namespace Emits

theorem pieces_eq (h : s.Emits i t) :
    s.pieces = Piece.ofTokens (s.body.take i) ++
      Piece.ofToken t :: Piece.ofTokens (s.body.drop (i + 1)) :=
  pieces_of_not_isLabel h.getElem?_eq h.not_isLabel h.not_isLabel_before

theorem width_eq (h : s.Emits i t) : (Piece.ofToken t).item.width = 1 :=
  (Piece.width_ofToken_eq_one_iff t).2 h.text_ne

/-- Of two tokens, the first one becomes the first word. -/
theorem emitted_lt (h : s.Emits i t) (h' : s.Emits j t') (hlt : i < j) :
    emitted (s.body.take i) < emitted (s.body.take j) := by
  have hcount : tokenCount (Piece.ofTokens (s.body.take i)) <
      tokenCount (Piece.ofTokens (s.body.take j)) := by
    rwa [Piece.tokenCount_ofTokens_take h.getElem?_eq,
      Piece.tokenCount_ofTokens_take h'.getElem?_eq]
  obtain ⟨between, hbetween⟩ :=
    Block.exists_between (h.pieces_eq.symm.trans h'.pieces_eq) hcount
  rw [Layout.emitted_eq_widthOf, Layout.emitted_eq_widthOf, hbetween, Block.widthOf_append, widthOf,
    h.width_eq]
  omega

theorem emitted_lt_body (h : s.Emits i t) : emitted (s.body.take i) < emitted s.body := by
  rw [Layout.emitted_eq_widthOf, Layout.emitted_eq_widthOf, ← Source.pieces, h.pieces_eq,
    Block.widthOf_append, widthOf, h.width_eq]
  omega

theorem le_of_emitted_le (h : s.Emits i t) (h' : s.Emits j t')
    (hle : emitted (s.body.take i) ≤ emitted (s.body.take j)) : i ≤ j :=
  Nat.not_lt.1 fun hlt => Nat.not_lt.2 hle (h'.emitted_lt h hlt)

theorem exists_slot (h : s.Emits i t) (st : s.Stages p) :
    ∃ slot, st.layout.slots[emitted (s.body.take i)]? = some (slot, t.line) := by
  obtain ⟨slot, hslot⟩ := Layout.exists_slot (Piece.ofTokens (s.body.take i))
    (Piece.ofTokens (s.body.drop (i + 1))) h.width_eq
  rw [← h.pieces_eq, st.layout_eq, ← Layout.emitted_eq_widthOf, Piece.line_ofToken] at hslot
  exact ⟨slot, hslot⟩

/-- The word of a token is what the token says. -/
theorem exists_word (h : s.Emits i t) (st : s.Stages p) :
    ∃ w, p.words[emitted (s.body.take i)]? = some w ∧ s.Says i t w := by
  rw [Layout.emitted_eq_widthOf]
  obtain ⟨w, hw⟩ := st.exists_word h.pieces_eq h.width_eq
  refine ⟨w, hw, ?_⟩
  rw [Says]
  cases hm : Opcode.ofMnemonic? t.text with
  | some op =>
    have hp := h.pieces_eq
    rw [Piece.ofToken_operation hm] at hp
    obtain ⟨_, w', hw', hdecode⟩ := st.word_of_operation hp
    obtain rfl := Option.some.inj (hw.symm.trans hw')
    exact (congrArg Header.opcode hdecode).trans Header.opcode_ofFlags
  | none =>
    rw [← Layout.emitted_eq_widthOf] at hw
    dsimp only
    split
    · next ho =>
      obtain ⟨close, w', hclose, hw', heq⟩ := st.exists_word_of_blockOpen h.getElem?_eq ho
      obtain rfl := Option.some.inj (hw.symm.trans hw')
      exact ⟨close, hclose, heq⟩
    · next ho =>
      have hoperand : s.IsOperand i t :=
        ⟨h.getElem?_eq, ⟨ho, h.text_ne⟩, hm, h.not_isLabel_before⟩
      exact (hoperand.getElem?_words st).symm.trans hw

/-- The line of a word is that of its token. -/
theorem lineOf?_eq (h : s.Emits i t) (st : s.Stages p) :
    p.lineOf? (emitted (s.body.take i)) = some t.line := by
  obtain ⟨slot, hslot⟩ := h.exists_slot st
  obtain ⟨w, _, hcell⟩ := st.exists_getElem?_cells (st.getElem?_finished hslot)
  rw [Program.lineOf?, hcell]
  rfl

end Emits

theorem EmitsLast.unique (h : s.EmitsLast i t) (h' : s.EmitsLast j t') : t = t' := by
  obtain rfl : i = j := Nat.le_antisymm (h'.2 i t h.1) (h.2 j t' h'.1)
  exact Option.some.inj (h.1.getElem?_eq.symm.trans h'.1.getElem?_eq)

/-! ## Words and their tokens -/

namespace Stages

variable (st : s.Stages p) {a : Nat}

include st in
/-- Every word but the one at the end is that of a token. -/
theorem exists_emits (ha : a < emitted s.body) :
    ∃ i t, s.Emits i t ∧ emitted (s.body.take i) = a := by
  rw [Layout.emitted_eq_widthOf] at ha
  obtain ⟨pre, q, post, hp, hq, rfl⟩ := exists_piece_of_lt_widthOf ha
  obtain ⟨i, t, hi, hl, rfl, hpre, _, _⟩ := Piece.exists_token_of_width hp hq
  refine ⟨i, t, ⟨hi, (Piece.width_ofToken_eq_one_iff t).1 hq, hl, fun j d hj hd hlabel => ?_⟩, ?_⟩
  · -- A label takes the token after it for its name, which is then no piece of its own.
    subst hj
    have hlabels := st.pieces_of_isLabel hd hlabel hi
    have hcount : tokenCount (Piece.ofTokens (s.body.take j)) < tokenCount pre := by
      rw [Piece.tokenCount_ofTokens_take hd, ← hpre, Piece.tokenCount_ofTokens_take hi]
      exact Nat.lt_succ_self j
    obtain ⟨between, hbetween⟩ := Block.exists_between (hlabels.symm.trans hp) hcount
    have htwo := congrArg tokenCount hbetween
    rw [← hpre, Piece.tokenCount_ofTokens_take hi, Block.tokenCount_append,
      Piece.tokenCount_ofTokens_take hd, tokenCount, Item.tokenCount] at htwo
    omega
  · rw [Layout.emitted_eq_widthOf, hpre]

theorem size_eq_emitted :
    p.size = emitted s.body + if st.layout.isTerminated then 0 else 1 := by
  rw [st.size_eq, Layout.emitted_eq_widthOf]

include st in
/-- The instruction at the end comes from the line after that of the last word, or after all
    lines. -/
theorem lineOf?_emitted (he : ¬s.EndsItself) :
    (∃ i t, s.EmitsLast i t ∧ p.lineOf? (emitted s.body) = some (lineAfter t.line)) ∨
      (∀ i t, ¬s.Emits i t) ∧ p.lineOf? (emitted s.body) = some (lineAfter s.lineCount) := by
  have hlength : st.layout.slots.length = emitted s.body := by
    rw [st.length_slots_layout, Layout.emitted_eq_widthOf]
  have hline : p.lineOf? (emitted s.body) = some (st.layout.endLine s.lineCount) := by
    have hslot : st.finished.slots[emitted s.body]? =
        some (.instruction (Header.new .halt), st.layout.endLine s.lineCount) := by
      rw [st.slots_finished, if_neg (mt st.isTerminated_iff.1 he), ← hlength,
        List.getElem?_concat_length]
    obtain ⟨w, _, hcell⟩ := st.exists_getElem?_cells hslot
    rw [Program.lineOf?, hcell]
    rfl
  rw [hline, Layout.endLine, List.getLast?_eq_getElem?, hlength]
  rcases Nat.eq_zero_or_pos (emitted s.body) with hzero | hpos
  · right
    refine ⟨fun i t h => Nat.not_lt_zero _ (hzero ▸ h.emitted_lt_body), ?_⟩
    rw [List.getElem?_eq_none (by omega)]
    rfl
  · left
    obtain ⟨i, t, h, hi⟩ := st.exists_emits (Nat.sub_lt hpos Nat.one_pos)
    obtain ⟨slot, hslot⟩ := h.exists_slot st
    refine ⟨i, t, ⟨h, fun j t' h' => h'.le_of_emitted_le h ?_⟩, ?_⟩
    · rw [hi]
      exact Nat.le_sub_one_of_lt h'.emitted_lt_body
    · rw [← hi, hslot]
      rfl

end Stages

/-! ## Lines of tokens -/

/-- The tokens of lines are their words, with the numbers of the lines. -/
theorem foldl_scanLine_empty {lines : List String} (h : lines.length < 2 ^ 32) :
    lines.foldl scanLine empty =
      ⟨(Token.numbered 1 (lines.map codeWords)).toArray, lines.length⟩ := by
  induction lines using List.reverseRecOn with
  | nil => rfl
  | append_singleton lines line ih =>
    rw [List.length_append, List.length_singleton] at h
    have hnumber : lineAfter lines.length = 1 + lines.length := by
      rw [lineAfter]
      omega
    rw [List.foldl_append, ih (Nat.lt_of_succ_lt h), List.foldl_cons, List.foldl_nil, scanLine,
      hnumber, List.map_append, List.map_singleton, Token.numbered_concat, List.length_map,
      List.length_append, List.length_singleton, Nat.add_comm 1]
    simp

/-- The lines of tokens do not decrease, and there are none after all lines. -/
structure Ordered (s : Source) : Prop where
  pairwise : s.tokens.toList.Pairwise fun t t' => t.line ≤ t'.line
  le_lineCount : ∀ t ∈ s.tokens, t.line ≤ s.lineCount
  lineCount_lt : s.lineCount < 0xFFFFFFFF

theorem ordered_scan {text : String} (h : (Text.lines text).length < 0xFFFFFFFF) :
    (scan text).Ordered := by
  rw [scan, foldl_scanLine_empty (Nat.lt_succ_of_lt h)]
  refine ⟨Token.pairwise_numbered _, fun t ht => ?_, h⟩
  obtain ⟨k, words, hk, -, hline⟩ := Token.mem_numbered_iff.1 (List.mem_toArray.1 ht)
  have hlt := (List.getElem?_eq_some_iff.1 hk).1
  rw [List.length_map] at hlt
  change t.line ≤ (Text.lines text).length
  omega

namespace Ordered

variable (ho : s.Ordered)

include ho

theorem lineAfter_lineCount : lineAfter s.lineCount = s.lineCount + 1 :=
  Nat.min_eq_left ho.lineCount_lt

theorem lineAfter_line (h : s.Emits i t) : lineAfter t.line = t.line + 1 := by
  have hmem := (Token.afterAliases_suffix s.tokens.toList).mem (List.mem_of_getElem? h.getElem?_eq)
  have hle := ho.le_lineCount t (Array.mem_toList_iff.1 hmem)
  exact Nat.min_eq_left (Nat.lt_of_le_of_lt hle ho.lineCount_lt)

theorem line_le (h : s.Emits i t) (h' : s.Emits j t') (hle : i ≤ j) : t.line ≤ t'.line := by
  rcases Nat.eq_or_lt_of_le hle with rfl | hlt
  · obtain rfl := Option.some.inj (h.getElem?_eq.symm.trans h'.getElem?_eq)
    exact Nat.le_refl _
  · obtain ⟨hi, rfl⟩ := List.getElem?_eq_some_iff.1 h.getElem?_eq
    obtain ⟨hj, rfl⟩ := List.getElem?_eq_some_iff.1 h'.getElem?_eq
    have hpairwise := ho.pairwise.sublist (Token.afterAliases_suffix s.tokens.toList).sublist
    exact List.pairwise_iff_getElem.1 hpairwise i j hi hj hlt

/-- Lines do not decrease from word to word. -/
theorem line_le_of_wordLine {a a' line line' : Nat} (h : s.WordLine s.lineCount a line)
    (h' : s.WordLine s.lineCount a' line') (hle : a ≤ a') : line ≤ line' := by
  cases h with
  | token h =>
    cases h' with
    | token h' => exact ho.line_le h h' (h.le_of_emitted_le h' hle)
    | afterLast _ h' => exact Nat.le_succ_of_le (ho.line_le h h'.1 (h'.2 _ _ h))
    | afterLines _ h' => exact absurd h (h' _ _)
  | afterLast _ h =>
    cases h' with
    | token h' => exact absurd h'.emitted_lt_body (Nat.not_lt.2 hle)
    | afterLast _ h' => rw [h.unique h']
    | afterLines _ h' => exact absurd h.1 (h' _ _)
  | afterLines _ h =>
    cases h' with
    | token h' => exact absurd h' (h _ _)
    | afterLast _ h' => exact absurd h'.1 (h _ _)
    | afterLines _ h' => exact Nat.le_refl _

/-- The lines in a program are those of its words. -/
theorem lineOf?_eq_some_iff (st : s.Stages p) {a line : Nat} :
    p.lineOf? a = some line ↔ s.WordLine s.lineCount a line := by
  constructor
  · intro h
    have ha : a < p.size := by
      obtain ⟨c, hc, _⟩ := Option.map_eq_some_iff.1 h
      exact (List.getElem?_eq_some_iff.1 hc).1
    rw [st.size_eq_emitted] at ha
    by_cases hlt : a < emitted s.body
    · obtain ⟨i, t, hemits, rfl⟩ := st.exists_emits hlt
      obtain rfl := Option.some.inj ((hemits.lineOf?_eq st).symm.trans h)
      exact .token hemits
    -- It is the word at the end, which is not there if the source ends itself.
    have hend : ¬st.layout.isTerminated = true ∧ a = emitted s.body := by
      split at ha
      · omega
      · next ht => exact ⟨ht, by omega⟩
    obtain ⟨ht, rfl⟩ := hend
    have he := mt st.isTerminated_iff.2 ht
    rcases st.lineOf?_emitted he with ⟨i, t, hlast, hline⟩ | ⟨hnone, hline⟩
    · rw [ho.lineAfter_line hlast.1, h] at hline
      cases hline
      exact .afterLast he hlast
    · rw [ho.lineAfter_lineCount, h] at hline
      cases hline
      exact .afterLines he hnone
  · intro h
    cases h with
    | token hemits => exact hemits.lineOf?_eq st
    | afterLast he hlast =>
      rcases st.lineOf?_emitted he with ⟨i, t, hlast', hline⟩ | ⟨hnone, _⟩
      · rw [hline, ho.lineAfter_line hlast'.1, hlast.unique hlast']
      · exact absurd hlast.1 (hnone _ _)
    | afterLines he hnone =>
      rcases st.lineOf?_emitted he with ⟨i, t, hlast, _⟩ | ⟨_, hline⟩
      · exact absurd hlast.1 (hnone i t)
      · rw [hline, ho.lineAfter_lineCount]

end Ordered

end Source

/-- The lines in a program are those of the tokens that have become its words, where all lines of
    the text are counted, and the line after them for the instruction that is added at the end. -/
theorem lines_of_words {text : String} {p : Program} (h : assemble text = .ok p)
    (hlines : (Text.lines text).length < 2 ^ 32 - 1) :
    ∃ s, Source.ofText text = .ok s ∧ s.assemble = .ok p ∧
      s.tokens.toList = Token.numbered 1 ((Text.lines text).map Source.codeWords) ∧
      (∀ a, (p.lineOf? a).isSome ↔ a < p.size) ∧
      (∀ a line, p.lineOf? a = some line ↔ s.WordLine (Text.lines text).length a line) ∧
      (∀ i t, s.Emits i t → ∃ w, p.words[emitted (s.body.take i)]? = some w ∧ s.Says i t w) ∧
      (∀ i j t t', s.Emits i t → s.Emits j t' → i < j →
        emitted (s.body.take i) < emitted (s.body.take j)) ∧
      ∀ a a' line line', p.lineOf? a = some line → p.lineOf? a' = some line' → a ≤ a' →
        line ≤ line' := by
  obtain ⟨s, hs, hp⟩ := except_bind_eq_ok.1 h
  obtain ⟨st⟩ := Source.nonempty_stages_iff.1 hp
  obtain ⟨_, rfl⟩ := Source.ofText_eq_ok_iff.1 hs
  have ho := Source.ordered_scan hlines
  have hscan := Source.foldl_scanLine_empty (Nat.lt_succ_of_lt hlines)
  have hcount : (Source.scan text).lineCount = (Text.lines text).length :=
    congrArg Source.lineCount hscan
  have hline : ∀ a line, p.lineOf? a = some line ↔
      (Source.scan text).WordLine (Text.lines text).length a line := by
    intro a line
    rw [← hcount]
    exact ho.lineOf?_eq_some_iff st
  refine ⟨_, hs, hp, ?_, fun a => ?_, hline, fun i t h => h.exists_word st,
    fun i j t t' => Source.Emits.emitted_lt, fun a a' line line' ha ha' hle => ?_⟩
  · rw [Source.scan, hscan]
  · rw [Program.lineOf?, Option.isSome_map, Option.isSome_iff_exists]
    exact ⟨fun ⟨_, hc⟩ => (List.getElem?_eq_some_iff.1 hc).1,
      fun ha => ⟨_, List.getElem?_eq_getElem ha⟩⟩
  · rw [hline, ← hcount] at ha ha'
    exact ho.line_le_of_wordLine ha ha' hle

/-- A text with lines that become no words: an empty one, and those of an alias, of a brace and of a
    label. -/
def Source.spreadText : String :=
  "ALIAS a 5 ; five\n\nIF \x7b\n  PUSH #a\n\n\x7d\nLABEL here\n"

/-- The program that this text becomes. -/
def Program.spread : Program where
  cells := [⟨805306375, 3⟩, ⟨2, 3⟩, ⟨805306373, 4⟩, ⟨5, 4⟩, ⟨0, 5⟩]
  variableCount := 0

theorem lines_of_words_spread :
    assemble Source.spreadText = .ok Program.spread ∧
      (Text.lines Source.spreadText).length = 7 ∧ 7 < 2 ^ 32 - 1 ∧
      ∃ s, Source.ofText Source.spreadText = .ok s ∧
        s.tokens.toList =
          Token.numbered 1 [["ALIAS", "a", "5"], [], ["IF", "\x7b"], ["PUSH", "#a"], [], ["\x7d"],
            ["LABEL", "here"]] ∧
        (∀ a, (Program.spread.lineOf? a).isSome ↔ a < Program.spread.size) ∧
        s.WordLine 7 0 3 ∧ s.WordLine 7 3 4 ∧ s.WordLine 7 4 5 := by
  have hassemble : assemble Source.spreadText = .ok Program.spread := by decide +kernel
  have hlength : (Text.lines Source.spreadText).length = 7 := by decide +kernel
  have hwords : (Text.lines Source.spreadText).map Source.codeWords =
      [["ALIAS", "a", "5"], [], ["IF", "\x7b"], ["PUSH", "#a"], [], ["\x7d"],
        ["LABEL", "here"]] := by
    decide +kernel
  obtain ⟨s, hs, _, htokens, hsome, hline, _⟩ :=
    lines_of_words hassemble (by rw [hlength]; decide)
  rw [hlength] at hline
  exact ⟨hassemble, hlength, by decide, s, hs, by rw [htokens, hwords], hsome,
    (hline 0 3).1 rfl, (hline 3 4).1 rfl, (hline 4 5).1 rfl⟩

end GridBots
