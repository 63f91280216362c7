import GridBots.Proofs.Instructions

/-!
# Programs are read as they are written

What is read from the words of a program is what was written (`instructions_as_written`):
each opcode of its text becomes the header of an instruction, with the operands that
follow the opcode in the text (`Token.operandSpan`), and these instructions are read one
after the other, provided that the text has no operands that belong to none of them.

An opcode is known by the index of its token. What an instruction has to say in order to
say what was written there is `Source.Stages.Spells`.
-/

namespace GridBots

open Block (widthOf)
open Layout (emitted)

namespace Token

/-- Whether a token is the opcode of an instruction. The directive of a label is none. -/
def isOperation (t : Token) : Bool :=
  (Opcode.ofMnemonic? t.text).any (· ≠ .label)

theorem isOperation_iff {t : Token} :
    t.isOperation = true ↔ ∃ op, Opcode.ofMnemonic? t.text = some op ∧ op ≠ .label := by
  simp only [isOperation, Option.any_eq_true, decide_eq_true_eq]

/-- The operands of an instruction, where the tokens are those after its opcode. They
    stand before the next opcode, label or brace; if that is a brace that opens a block,
    the block is the last operand. -/
def operandSpan : List Token → List Token
  | [] => []
  | t :: rest =>
    if t.text = blockOpen then [t]
    else if t.text = blockClose ∨ (Opcode.ofMnemonic? t.text).isSome then []
    else t :: operandSpan rest

/-- Whether an operand of an instruction is immediate: it is marked so, or is a block. -/
def isImmediateOperand (t : Token) : Bool :=
  t.isImmediate || t.text = blockOpen

end Token

namespace Source

/-- The last token of a body that becomes a word is the opcode of an instruction that
    ends the tick. -/
def EndsItself (s : Source) : Prop :=
  ∃ i t, s.body[i]? = some t ∧ Opcode.ofMnemonic? t.text = some .halt ∧
    emitted (s.body.take (i + 1)) = emitted s.body

namespace Stages

variable {s : Source} {p : Program}

/-- The word `w` is that of an operand, the token of the body with the index `k`. The word
    of a block is the number of words up to the brace that closes it; the word of any
    other operand is the number or the name that it is. -/
def IsWord (st : s.Stages p) (k : Nat) (operand : Token) (w : Word) : Prop :=
  if operand.text = Token.blockOpen then
    ∃ close, Token.closing? 0 (k + 1) (s.body.drop (k + 1)) = some close ∧
      emitted (s.body.take k) + 1 + w.toInt = emitted (s.body.take close)
  else st.symbols.value? operand.operandText = some w

/-- An instruction says what is written in the body from the token with the index `i` on. -/
structure Spells (st : s.Stages p) (i : Nat) (instruction : Instruction) : Prop where
  address : instruction.address = emitted (s.body.take i)
  opcode : ∃ t op, s.body[i]? = some t ∧ Opcode.ofMnemonic? t.text = some op ∧ op ≠ .label ∧
    instruction.header.opcode = op.value
  operandCount :
    instruction.header.operandCount = (Token.operandSpan (s.body.drop (i + 1))).length
  operandCount_le : instruction.header.operandCount ≤ Header.maxOperands
  isImmediate : ∀ j, instruction.header.isImmediate j =
    (Token.operandSpan (s.body.drop (i + 1)))[j]?.any Token.isImmediateOperand
  /-- No operand is cut off. -/
  length_operands : instruction.operands.length = instruction.header.operandCount
  operands : ∀ j operand, (Token.operandSpan (s.body.drop (i + 1)))[j]? = some operand →
    ∃ w, instruction.operands[j]? = some w ∧ st.IsWord (i + 1 + j) operand w

end Stages

end Source

/-! ## Spans of operands -/

namespace Piece

variable {t : Token} {rest tokens : List Token}

theorem operandSpan_of_ofMnemonic? {op : Opcode} (h : Opcode.ofMnemonic? t.text = some op) :
    Token.operandSpan (t :: rest) = [] := by
  have ho : t.text ≠ Token.blockOpen := fun ho => by
    rw [ho, ofMnemonic?_blockOpen] at h
    simp at h
  rw [Token.operandSpan, if_neg ho, if_pos (.inr (by rw [h]; rfl))]

theorem operandSpan_of_operand (h : Opcode.ofMnemonic? t.text = none)
    (ho : t.text ≠ Token.blockOpen) (hc : t.text ≠ Token.blockClose) :
    Token.operandSpan (t :: rest) = t :: Token.operandSpan rest := by
  rw [Token.operandSpan, if_neg ho, if_neg]
  rintro (hc' | hm)
  · exact hc hc'
  · rw [h] at hm
    simp at hm

theorem isOperation_eq_false_of_isLabel (ht : t.isLabel = true) : t.isOperation = false := by
  rw [Token.isOperation, of_decide_eq_true ht]
  rfl

theorem isOperation_ofToken (ht : ¬t.isLabel = true) :
    (ofToken t).item.isOperation = t.isOperation := by
  rw [Token.isOperation]
  rcases ofToken_cases t with ⟨ho, hp⟩ | ⟨hc, hp⟩ | ⟨_, _, ⟨op, hm, hp⟩ | ⟨hm, hp⟩⟩ <;> rw [hp]
  · rw [ho, ofMnemonic?_blockOpen]
    rfl
  · rw [hc, ofMnemonic?_blockClose]
    rfl
  · have hop : op ≠ .label := fun hop => ht (decide_eq_true (hop ▸ hm))
    rw [hm, Option.any_some, decide_eq_true hop]
    rfl
  · rw [hm]
    rfl

/-- The flags in the header of an instruction are those of the operands after its opcode. -/
theorem operandFlags_ofTokens (tokens : List Token) :
    operandFlags (ofTokens tokens) = (Token.operandSpan tokens).map Token.isImmediateOperand := by
  induction tokens using ofTokens.induct with
  | case1 => rfl
  | case2 t ht =>
    rw [ofTokens, if_pos ht, operandSpan_of_ofMnemonic? (of_decide_eq_true ht)]
    rfl
  | case3 t ht name rest hn ih =>
    rw [ofTokens_label ht hn, operandSpan_of_ofMnemonic? (of_decide_eq_true ht)]
    rfl
  | case4 t ht name rest hn ih =>
    rw [ofTokens_namelessLabel ht hn, operandSpan_of_ofMnemonic? (of_decide_eq_true ht)]
    rfl
  | case5 t rest ht ih =>
    rw [ofTokens_cons ht]
    rcases ofToken_cases t with ⟨ho, hp⟩ | ⟨hc, hp⟩ | ⟨ho, hc, ⟨op, hm, hp⟩ | ⟨hm, hp⟩⟩ <;> rw [hp]
    · rw [Token.operandSpan, if_pos ho, List.map_singleton, Token.isImmediateOperand, ho]
      simp [operandFlags]
    · rw [Token.operandSpan, if_neg (by rw [hc]; decide), if_pos (.inl hc)]
      rfl
    · rw [operandSpan_of_ofMnemonic? hm]
      rfl
    · rw [operandSpan_of_operand hm ho hc, List.map_cons, ← ih, Token.isImmediateOperand,
        decide_eq_false ho, Bool.or_false]
      rfl

/-- An operand of an instruction is a piece of its own, and so are those before it. -/
theorem ofTokens_of_operandSpan {j : Nat} {operand : Token}
    (h : (Token.operandSpan tokens)[j]? = some operand) :
    tokens[j]? = some operand ∧ Opcode.ofMnemonic? operand.text = none ∧
      operand.text ≠ Token.blockClose ∧ widthOf (ofTokens (tokens.take j)) = j ∧
      ofTokens tokens =
        ofTokens (tokens.take j) ++ ofToken operand :: ofTokens (tokens.drop (j + 1)) := by
  induction tokens generalizing j with
  | nil => cases h
  | cons t rest ih =>
    rw [Token.operandSpan] at h
    by_cases ho : t.text = Token.blockOpen
    · rw [if_pos ho] at h
      cases j with
      | succ j => simp at h
      | zero =>
        obtain rfl := Option.some.inj h
        refine ⟨rfl, by rw [ho, ofMnemonic?_blockOpen], by rw [ho]; decide, rfl, ?_⟩
        exact ofTokens_cons (by rw [not_isLabel_of_blockOpen ho]; exact Bool.false_ne_true)
    rw [if_neg ho] at h
    split at h
    · simp at h
    next hn =>
    rw [not_or, Option.not_isSome_iff_eq_none] at hn
    have hl := not_isLabel_of_ofMnemonic?_eq_none hn.2
    cases j with
    | zero =>
      obtain rfl := Option.some.inj h
      exact ⟨rfl, hn.2, hn.1, rfl, ofTokens_cons hl⟩
    | succ j =>
      obtain ⟨hj, hm, hc, hw, hp⟩ := ih h
      refine ⟨hj, hm, hc, ?_, ?_⟩
      · rw [List.take_succ_cons, ofTokens_cons hl, ofToken_operand hn.2 ho hn.1, widthOf, hw,
          Nat.add_comm]
        rfl
      · rw [List.take_succ_cons, ofTokens_cons hl, ofTokens_cons hl, hp]
        rfl

end Piece

namespace Source.Stages

variable {s : Source} {p : Program} (st : s.Stages p) {i : Nat} {t : Token}

/-! ## Single instructions -/

/-- The words after that of an opcode are those of its operands. -/
theorem exists_isWord {j : Nat} {op : Opcode} {operand : Token} (hi : s.body[i]? = some t)
    (ho : Opcode.ofMnemonic? t.text = some op) (hl : op ≠ .label)
    (hj : (Token.operandSpan (s.body.drop (i + 1)))[j]? = some operand) :
    ∃ w, p.words[emitted (s.body.take i) + 1 + j]? = some w ∧ st.IsWord (i + 1 + j) operand w := by
  obtain ⟨hg, hm, hc, hw, hp⟩ := Piece.ofTokens_of_operandSpan hj
  rw [List.getElem?_drop] at hg
  have he : emitted (s.body.take (i + 1 + j)) = emitted (s.body.take i) + 1 + j := by
    rw [Layout.emitted_eq_widthOf, Layout.emitted_eq_widthOf, st.ofTokens_of_operation hi ho hl,
      Block.widthOf_append, widthOf, hw, Nat.add_assoc]
    rfl
  rw [← he]
  by_cases hb : operand.text = Token.blockOpen
  · -- The operand is a block, which has no piece of that kind.
    obtain ⟨close, w, hclose, hr, hv⟩ := st.exists_word_of_blockOpen hg hb
    refine ⟨w, hr, ?_⟩
    rw [IsWord, if_pos hb]
    exact ⟨close, hclose, hv⟩
  · have hpieces : s.pieces = Piece.ofTokens (s.body.take (i + 1 + j)) ++
        ⟨.operand operand.operandText operand.isImmediate, operand.line⟩ ::
          Piece.ofTokens (s.body.drop (i + 1 + (j + 1))) := by
      rw [st.pieces_of_operation hi ho hl, hp, st.ofTokens_of_operation hi ho hl,
        Piece.ofToken_operand hm hb hc, List.drop_drop, List.append_assoc]
      rfl
    have hword := st.word_of_operand hpieces
    obtain ⟨w, hr⟩ := st.exists_word hpieces rfl
    rw [← Layout.emitted_eq_widthOf] at hword hr
    refine ⟨w, hr, ?_⟩
    rw [IsWord, if_neg hb, ← hr, hword]

/-- An opcode becomes a word, and the instruction that is read from it on says what is
    written there. -/
theorem exists_spells (hi : s.body[i]? = some t) (ho : t.isOperation = true) :
    ∃ w, p.words[emitted (s.body.take i)]? = some w ∧
      st.Spells i (Instruction.read (emitted (s.body.take i)) w
        (p.words.drop (emitted (s.body.take i) + 1))) := by
  obtain ⟨op, hm, hop⟩ := Token.isOperation_iff.1 ho
  obtain ⟨hlen, w, hw, hd⟩ := st.word_of_operation (st.pieces_of_operation hi hm hop)
  rw [Piece.operandFlags_ofTokens] at hlen hd
  rw [← Layout.emitted_eq_widthOf] at hw
  have hcount : (Header.decode w).operandCount =
      (Token.operandSpan (s.body.drop (i + 1))).length := by
    rw [hd, Header.operandCount_ofFlags hlen, List.length_map]
  have hwords : ∀ j operand, (Token.operandSpan (s.body.drop (i + 1)))[j]? = some operand →
      ∃ v, ((p.words.drop (emitted (s.body.take i) + 1)).take (Header.decode w).operandCount)[j]? =
        some v ∧ st.IsWord (i + 1 + j) operand v := by
    intro j operand hj
    obtain ⟨v, hv, hisWord⟩ := st.exists_isWord hi hm hop hj
    refine ⟨v, ?_, hisWord⟩
    rw [hcount, List.getElem?_take_of_lt (List.getElem?_eq_some_iff.1 hj).1, List.getElem?_drop, hv]
  refine ⟨w, hw, rfl, ⟨t, op, hi, hm, hop, ?_⟩, hcount, ?_, fun j => ?_, ?_, hwords⟩
  · exact (congrArg Header.opcode hd).trans Header.opcode_ofFlags
  · exact Header.decode_operandCount_le w
  · refine (congrArg (Header.isImmediate · j) hd).trans ?_
    rw [Header.isImmediate_ofFlags hlen, List.getD_eq_getElem?_getD, List.getElem?_map]
    cases (Token.operandSpan (s.body.drop (i + 1)))[j]? with
    | none => rfl
    | some _ => rfl
  · -- The last operand is there, so that none is cut off.
    refine Nat.le_antisymm (List.length_take_le _ _) (Nat.not_lt.1 fun hlt => ?_)
    have hj := List.getElem?_eq_getElem (hcount ▸ hlt)
    obtain ⟨v, hv, _⟩ := hwords _ _ hj
    exact absurd (List.getElem?_eq_some_iff.1 hv).1 (Nat.lt_irrefl _)

/-! ## All instructions -/

include st in
theorem isOperation_of_label {name : Token} {line : Nat} (h : ⟨.label name.text, line⟩ ∈ s.pieces) :
    name.isOperation = false := by
  have hr := st.isReserved_of_label h
  rw [Token.isOperation]
  cases hm : Opcode.ofMnemonic? name.text with
  | none => rfl
  | some op =>
    rw [SymbolTable.isReserved_of_ofMnemonic? hm] at hr
    simp at hr

include st in
/-- The words of opcodes come after as many words as the tokens before the opcodes become.

    The induction is on the tokens `rest` that are still to be gone through. Those before
    them end with a piece, whatever comes next. -/
theorem headers_ofTokens {pre rest : List Token} (h : s.body = pre ++ rest)
    (hpre : ∀ us, Piece.ofTokens (pre ++ us) = Piece.ofTokens pre ++ Piece.ofTokens us) :
    Piece.headers (emitted pre) (Piece.ofTokens rest) =
      (rest.findIdxs Token.isOperation pre.length).map fun i => emitted (s.body.take i) := by
  induction rest using Piece.ofTokens.induct generalizing pre with
  | case1 => rfl
  | case2 t ht =>
    refine absurd ?_ (st.namelessLabel_not_mem t.line)
    rw [pieces, h, hpre, Piece.ofTokens, if_pos ht]
    exact List.mem_append_right _ List.mem_cons_self
  | case3 t ht name rest hn ih =>
    have hcons : ∀ us, Piece.ofTokens (pre ++ [t, name] ++ us) =
        Piece.ofTokens (pre ++ [t, name]) ++ Piece.ofTokens us := by
      intro us
      rw [List.append_assoc, hpre, hpre, List.cons_append, List.singleton_append,
        Piece.ofTokens_label ht hn, Piece.ofTokens_label ht hn, List.append_assoc]
      rfl
    have happ : s.body = (pre ++ [t, name]) ++ rest := by rw [h, List.append_assoc]; rfl
    have ih := ih happ hcons
    have he : emitted (pre ++ [t, name]) = emitted pre := by
      rw [Layout.emitted_eq_widthOf, Layout.emitted_eq_widthOf, hpre, Piece.ofTokens_label ht hn,
        Block.widthOf_append]
      rfl
    -- The name of a label is no opcode, as it would be reserved then.
    have hm : ⟨.label name.text, t.line⟩ ∈ s.pieces := by
      rw [pieces, h, hpre, Piece.ofTokens_label ht hn]
      exact List.mem_append_right _ List.mem_cons_self
    rw [List.length_append, he] at ih
    rw [Piece.ofTokens_label ht hn, List.findIdxs_cons, List.findIdxs_cons,
      Piece.isOperation_eq_false_of_isLabel ht, st.isOperation_of_label hm]
    exact ih
  | case4 t ht name rest hn ih =>
    refine absurd ?_ (st.namelessLabel_not_mem t.line)
    rw [pieces, h, hpre, Piece.ofTokens_namelessLabel ht hn]
    exact List.mem_append_right _ List.mem_cons_self
  | case5 t rest ht ih =>
    have hcons : ∀ us, Piece.ofTokens (pre ++ [t] ++ us) =
        Piece.ofTokens (pre ++ [t]) ++ Piece.ofTokens us := by
      intro us
      rw [List.append_assoc, hpre, hpre, List.singleton_append, Piece.ofTokens_cons ht,
        Piece.ofTokens_cons ht, List.append_assoc]
      rfl
    have happ : s.body = (pre ++ [t]) ++ rest := by rw [h, List.append_assoc]; rfl
    have ih := ih happ hcons
    have he : emitted (pre ++ [t]) = emitted pre + (Piece.ofToken t).item.width := by
      rw [Layout.emitted_eq_widthOf, Layout.emitted_eq_widthOf, hpre, Piece.ofTokens_cons ht,
        Block.widthOf_append]
      rfl
    rw [List.length_append, List.length_singleton, he] at ih
    rw [Piece.ofTokens_cons ht, Piece.headers, Piece.isOperation_ofToken ht, List.findIdxs_cons]
    by_cases ho : t.isOperation = true
    · have htake : s.body.take pre.length = pre := by rw [h, List.take_left]
      rw [if_pos ho, if_pos ho, List.map_cons, htake, ← ih]
    · rw [if_neg ho, if_neg ho]
      exact ih

/-! ## The end -/

/-- Every word that pieces become is that of a piece. -/
theorem exists_piece_of_lt_widthOf {pieces : List Piece} {n : Nat} (h : n < widthOf pieces) :
    ∃ pre q post, pieces = pre ++ q :: post ∧ q.item.width = 1 ∧ widthOf pre = n := by
  induction pieces generalizing n with
  | nil => exact absurd h (Nat.not_lt_zero n)
  | cons q pieces ih =>
    -- The word is that of the first piece, or of one of the others.
    have hlater : ∀ {m}, n = q.item.width + m → ∃ pre q' post, q :: pieces = pre ++ q' :: post ∧
        q'.item.width = 1 ∧ widthOf pre = n := by
      rintro m rfl
      obtain ⟨pre, q', post, rfl, hq, hw⟩ := ih (Nat.lt_of_add_lt_add_left h)
      exact ⟨q :: pre, q', post, rfl, hq, by rw [widthOf, hw]⟩
    rcases q.item.width_eq_zero_or_one with hq | hq
    · exact hlater (by rw [hq, Nat.zero_add])
    · cases n with
      | zero => exact ⟨[], q, pieces, rfl, hq, rfl⟩
      | succ n => exact hlater (by rw [hq, Nat.add_comm])

/-- The layout of a program ends with an instruction that ends the tick exactly if its
    text does. -/
theorem isTerminated_iff : st.layout.isTerminated = true ↔ s.EndsItself := by
  rw [Layout.isTerminated, List.getLast?_eq_getElem?, st.length_slots_layout]
  constructor
  · intro h
    cases hn : widthOf s.pieces with
    | zero =>
      have hnil : st.layout.slots = [] :=
        List.eq_nil_of_length_eq_zero (st.length_slots_layout.trans hn)
      rw [hnil] at h
      simp at h
    | succ n =>
      -- The last word is the header of an instruction, so that its piece is an opcode.
      have hlast : n < widthOf s.pieces := hn ▸ Nat.lt_succ_self n
      obtain ⟨pre, ⟨item, line⟩, post, hp, hq, hw⟩ := exists_piece_of_lt_widthOf hlast
      have hl := st.layout_eq
      rw [hp] at hl
      rw [hn, Nat.add_sub_cancel, ← hw, ← hl] at h
      cases item with
      | opening =>
        rw [Layout.getElem?_slots_opening] at h
        cases h
      | operand text immediate =>
        rw [Layout.getElem?_slots_operand] at h
        cases h
      | operation op =>
        rw [Layout.getElem?_slots_operation] at h
        have hop : (Header.ofFlags op (operandFlags post)).opcode = Opcode.halt.value :=
          of_decide_eq_true h
        rw [Header.opcode_ofFlags] at hop
        obtain rfl := Header.opcode_eq_of_value_eq hop
        obtain ⟨i, t, hi, hm, _, ht, _⟩ := Piece.exists_token_of_operation hp
        refine ⟨i, t, hi, hm, ?_⟩
        rw [Layout.emitted_eq_widthOf, Layout.emitted_eq_widthOf, ht, Block.widthOf_append, hw]
        exact hn.symm
      | closing => cases hq
      | label name => cases hq
      | namelessLabel => cases hq
  · -- No words come after that of the opcode.
    rintro ⟨i, t, hi, hm, he⟩
    have hp := st.pieces_of_operation hi hm (by simp)
    have hw : widthOf s.pieces = widthOf (Piece.ofTokens (s.body.take i)) + 1 := by
      rw [← Layout.emitted_eq_widthOf, ← he, Layout.emitted_eq_widthOf,
        ← Nat.add_zero (i + 1), st.ofTokens_of_operation hi hm (by simp), Block.widthOf_append]
      rfl
    have hl := st.layout_eq
    rw [hp] at hl
    rw [hw, Nat.add_sub_cancel, ← hl, Layout.getElem?_slots_operation]
    exact decide_eq_true Header.opcode_ofFlags

include st in
/-- The last instruction, if the assembler has added it. -/
theorem eq_of_mem_instructions {i : Instruction} (hi : i ∈ p.instructions)
    (ha : i.address = widthOf s.pieces) (ht : ¬st.layout.isTerminated = true) :
    i = ⟨emitted s.body, Header.new .halt, []⟩ := by
  obtain ⟨w, hw, hr⟩ := Instruction.eq_read_of_mem_instructions hi
  have hd := st.drop_words_widthOf
  rw [if_neg ht, ← ha, drop_eq_cons hw] at hd
  obtain ⟨rfl, hnil⟩ := List.cons.inj hd
  have hdecode : Header.decode (Header.new .halt).encode = Header.new .halt :=
    rfl
  rw [hr, hnil, Instruction.read, hdecode, ha, Layout.emitted_eq_widthOf]
  rfl

/-- The instructions that are read where opcodes are written say what is written there. -/
theorem forall₂_spells {indices : List Nat} {written : List Instruction}
    (h : written.map Instruction.address = indices.map fun i => emitted (s.body.take i))
    (hi : ∀ i ∈ indices, ∃ t, s.body[i]? = some t ∧ t.isOperation = true)
    (hw : ∀ ins ∈ written, ins ∈ p.instructions) : List.Forall₂ st.Spells indices written := by
  induction indices generalizing written with
  | nil => rw [List.map_eq_nil_iff.1 h]; exact .nil
  | cons i indices ih =>
    obtain ⟨ins, written, rfl, ha, h⟩ := List.map_eq_cons_iff.1 h
    refine .cons ?_ (ih h (fun k hk => hi k (List.mem_cons_of_mem _ hk))
      fun ins hins => hw ins (List.mem_cons_of_mem _ hins))
    obtain ⟨t, ht, ho⟩ := hi i List.mem_cons_self
    obtain ⟨w, hr, hs⟩ := st.exists_spells ht ho
    obtain ⟨w', hr', he⟩ := Instruction.eq_read_of_mem_instructions
      (hw ins List.mem_cons_self)
    rw [ha] at hr' he
    rw [hr] at hr'
    rw [he, ← Option.some.inj hr']
    exact hs

end Source.Stages

/-- Programs are read as they are written. In a program, every opcode of its source has
    become a word, and the instruction that is read from there on says what is written in
    the source. If all operands belong to instructions, the instructions of the program are
    those that are written, in their order, and at the end one more if the source does not
    end itself. -/
theorem instructions_as_written {s : Source} {p : Program} (h : s.assemble = .ok p) :
    ∃ st : s.Stages p,
      (∀ i t, s.body[i]? = some t → t.isOperation = true →
        ∃ w, p.words[emitted (s.body.take i)]? = some w ∧
          st.Spells i (Instruction.read (emitted (s.body.take i)) w
            (p.words.drop (emitted (s.body.take i) + 1)))) ∧
      (Piece.Spanned s.pieces → ∃ written ending, p.instructions = written ++ ending ∧
        List.Forall₂ st.Spells (s.body.findIdxs Token.isOperation) written ∧
        (s.EndsItself → ending = []) ∧
        (¬s.EndsItself → ending = [⟨emitted s.body, Header.new .halt, []⟩])) := by
  obtain ⟨st⟩ := Source.nonempty_stages_iff.1 h
  refine ⟨st, fun i t hi ho => st.exists_spells hi ho, fun hs => ?_⟩
  have ha := st.addresses_instructions hs
  have hbody : s.body = [] ++ s.body := rfl
  have hheaders : Piece.headers 0 s.pieces = _ := st.headers_ofTokens hbody fun _ => rfl
  rw [hheaders] at ha
  obtain ⟨written, ending, hp, hwritten, hending⟩ := List.map_eq_append_iff.1 ha
  refine ⟨written, ending, hp, st.forall₂_spells hwritten (fun i hi => ?_) fun i hi => ?_,
    fun he => ?_, fun he => ?_⟩
  · obtain ⟨hlt, ho⟩ := List.mem_findIdxs_iff_exists_getElem_pos.1 hi
    exact ⟨_, List.getElem?_eq_getElem hlt, ho⟩
  · rw [hp]
    exact List.mem_append_left _ hi
  · rw [if_pos (st.isTerminated_iff.2 he)] at hending
    exact List.map_eq_nil_iff.1 hending
  · have ht := mt st.isTerminated_iff.1 he
    rw [if_neg ht] at hending
    obtain ⟨i, rest, rfl, hi, hrest⟩ := List.map_eq_cons_iff.1 hending
    have hmem : i ∈ p.instructions := by
      rw [hp]
      exact List.mem_append_right _ List.mem_cons_self
    rw [List.map_eq_nil_iff.1 hrest, st.eq_of_mem_instructions hmem hi ht]

theorem instructions_as_written_nested :
    Source.nested.assemble = .ok Program.nested ∧ Source.nested.body[6]? = some ⟨"IF", 1⟩ ∧
      (⟨"IF", 1⟩ : Token).isOperation = true ∧ Piece.Spanned Source.nested.pieces ∧
      ¬Source.nested.EndsItself ∧
      ∃ (st : Source.nested.Stages Program.nested) (written : List Instruction),
        (∃ w, Program.nested.words[4]? = some w ∧
          st.Spells 6 (Instruction.read 4 w (Program.nested.words.drop 5))) ∧
        List.Forall₂ st.Spells [0, 2, 6, 10] written ∧
        Program.nested.instructions = written ++ [⟨8, Header.new .halt, []⟩] := by
  have hs : Piece.Spanned Source.nested.pieces := by decide
  have he : ¬Source.nested.EndsItself := by
    rintro ⟨i, t, hi, hm, _⟩
    have hne : ∀ t ∈ Source.nested.body, Opcode.ofMnemonic? t.text ≠ some .halt := by decide
    exact hne t (List.mem_of_getElem? hi) hm
  obtain ⟨st, hspells, hwritten⟩ := instructions_as_written Source.assemble_nested
  obtain ⟨written, ending, hp, hf, _, hending⟩ := hwritten hs
  rw [hending he] at hp
  exact ⟨Source.assemble_nested, rfl, by decide, hs, he, st, written,
    hspells 6 ⟨"IF", 1⟩ rfl (by decide), hf, hp⟩

end GridBots
