import GridBots.Proofs.Nesting

/-!
# Tokens and their pieces

How the pieces of a sequence of tokens (`Piece.ofTokens`) come from its parts. A
token either stands by itself or is the name of a label, and what stands before
a token that stands by itself can be cut off: the pieces are then those of the
tokens before it, and those from it on (`ofTokens_append_cons`). Braces always
stand by themselves.

Braces are counted among tokens as they are among pieces: by the number of them
(`countP_blockOpen`), and when the brace is looked for that closes a block
(`Token.closing?`), so that it is the one after what is inside the block
(`closing?_eq`).
-/

namespace GridBots

theorem Text.head?_upperCase {text : String} {c : Char} (h : text.toList.head? = some c) :
    (upperCase text).toList.head? = some c.toUpper := by
  rw [upperCase, String.toList_ofList, List.head?_map, h]
  rfl

/-- The index of the brace that closes a block, where the first of the tokens has
    the given index, and `depth` inner blocks have still to be closed before. -/
def Token.closing? (depth index : Nat) : List Token → Option Nat
  | [] => none
  | t :: rest =>
    if t.text = blockOpen then closing? (depth + 1) (index + 1) rest
    else if t.text = blockClose then
      match depth with
      | 0 => some index
      | depth + 1 => closing? depth (index + 1) rest
    else closing? depth (index + 1) rest

namespace Piece

/-- How many blocks are opened among pieces. -/
def openings (pieces : List Piece) : Nat :=
  pieces.countP fun p => p.item = .opening

/-! ## Single tokens -/

variable {t name : Token} {line : Nat}

theorem not_isLabel_of_blockOpen (h : t.text = Token.blockOpen) : t.isLabel = false := by
  rw [Token.isLabel, h]
  decide

theorem not_isLabel_of_blockClose (h : t.text = Token.blockClose) : t.isLabel = false := by
  rw [Token.isLabel, h]
  decide

theorem not_isLabel_of_ofMnemonic?_eq_none (h : Opcode.ofMnemonic? t.text = none) :
    ¬t.isLabel = true := by
  rw [Token.isLabel, h]
  decide

/-- A text is no opcode if no opcode begins with the same character, of either case. -/
theorem ofMnemonic?_eq_none_of_head? {text : String} {c : Char} (h : text.toList.head? = some c)
    (hs : ∀ e ∈ Opcode.spellings, e.1.toList.head? ≠ some c.toUpper) :
    Opcode.ofMnemonic? text = none := by
  rw [Opcode.ofMnemonic?, List.lookup_eq_none_iff]
  intro e he
  rw [bne_iff_ne]
  exact fun heq => hs e he (heq ▸ Text.head?_upperCase h)

/-- An operand that is marked as immediate is no opcode. -/
theorem ofMnemonic?_of_isImmediate (h : t.isImmediate = true) :
    Opcode.ofMnemonic? t.text = none :=
  ofMnemonic?_eq_none_of_head? (of_decide_eq_true h) (by decide)

theorem not_reserved_of_isImmediate (h : t.isImmediate = true) :
    Opcode.ofMnemonic? t.text = none ∧ t.text ≠ Token.blockOpen ∧ t.text ≠ Token.blockClose := by
  refine ⟨ofMnemonic?_of_isImmediate h, fun ho => ?_, fun hc => ?_⟩
  · rw [Token.isImmediate, ho] at h
    exact absurd h (by decide)
  · rw [Token.isImmediate, hc] at h
    exact absurd h (by decide)

theorem text_ne_of_isLabel (h : t.isLabel = true) :
    t.text ≠ Token.blockOpen ∧ t.text ≠ Token.blockClose :=
  ⟨fun ho => by simp [not_isLabel_of_blockOpen ho] at h,
    fun hc => by simp [not_isLabel_of_blockClose hc] at h⟩

theorem text_ne_of_canBeName (h : name.canBeName = true) :
    name.text ≠ Token.blockOpen ∧ name.text ≠ Token.blockClose := by
  simp only [Token.canBeName, Token.canBeValue, decide_eq_true_eq] at h
  exact h.1.2

theorem ofToken_blockOpen (h : t.text = Token.blockOpen) : ofToken t = ⟨.opening, t.line⟩ :=
  if_pos h

theorem ofToken_blockClose (h : t.text = Token.blockClose) : ofToken t = ⟨.closing, t.line⟩ := by
  rw [ofToken, if_neg (by rw [h]; decide), if_pos h]

theorem ofMnemonic?_blockOpen : Opcode.ofMnemonic? Token.blockOpen = none := by decide

theorem ofMnemonic?_blockClose : Opcode.ofMnemonic? Token.blockClose = none := by decide

theorem ofToken_operation {op : Opcode} (h : Opcode.ofMnemonic? t.text = some op) :
    ofToken t = ⟨.operation op, t.line⟩ := by
  have ho : t.text ≠ Token.blockOpen := fun ho => by
    rw [ho, ofMnemonic?_blockOpen] at h
    simp at h
  have hc : t.text ≠ Token.blockClose := fun hc => by
    rw [hc, ofMnemonic?_blockClose] at h
    simp at h
  rw [ofToken, if_neg ho, if_neg hc, h]

theorem ofToken_operand (h : Opcode.ofMnemonic? t.text = none) (ho : t.text ≠ Token.blockOpen)
    (hc : t.text ≠ Token.blockClose) :
    ofToken t = ⟨.operand t.operandText t.isImmediate, t.line⟩ := by
  rw [ofToken, if_neg ho, if_neg hc, h]

/-- A token is a brace, an opcode or an operand. -/
theorem ofToken_cases (t : Token) :
    (t.text = Token.blockOpen ∧ ofToken t = ⟨.opening, t.line⟩) ∨
      (t.text = Token.blockClose ∧ ofToken t = ⟨.closing, t.line⟩) ∨
      (t.text ≠ Token.blockOpen ∧ t.text ≠ Token.blockClose ∧
        ((∃ op, Opcode.ofMnemonic? t.text = some op ∧ ofToken t = ⟨.operation op, t.line⟩) ∨
          (Opcode.ofMnemonic? t.text = none ∧
            ofToken t = ⟨.operand t.operandText t.isImmediate, t.line⟩))) := by
  by_cases ho : t.text = Token.blockOpen
  · exact .inl ⟨ho, ofToken_blockOpen ho⟩
  by_cases hc : t.text = Token.blockClose
  · exact .inr (.inl ⟨hc, ofToken_blockClose hc⟩)
  refine .inr (.inr ⟨ho, hc, ?_⟩)
  cases h : Opcode.ofMnemonic? t.text with
  | some op => exact .inl ⟨op, rfl, ofToken_operation h⟩
  | none => exact .inr ⟨rfl, ofToken_operand h ho hc⟩

theorem tokenCount_ofToken (t : Token) : (ofToken t).item.tokenCount = 1 := by
  rcases ofToken_cases t with ⟨_, h⟩ | ⟨_, h⟩ | ⟨_, _, ⟨op, _, h⟩ | ⟨_, h⟩⟩ <;> rw [h] <;> rfl

/-! ## Sequences of tokens -/

variable {tokens rest : List Token}

theorem ofTokens_label (ht : t.isLabel = true) (hn : name.canBeName = true) :
    ofTokens (t :: name :: rest) = ⟨.label name.text, t.line⟩ :: ofTokens rest := by
  rw [ofTokens, if_pos ht]
  exact if_pos hn

theorem ofTokens_namelessLabel (ht : t.isLabel = true) (hn : ¬name.canBeName = true) :
    ofTokens (t :: name :: rest) = ⟨.namelessLabel, t.line⟩ :: ofTokens (name :: rest) := by
  rw [ofTokens, if_pos ht]
  exact if_neg hn

theorem ofTokens_cons (ht : ¬t.isLabel = true) :
    ofTokens (t :: rest) = ofToken t :: ofTokens rest := by
  rw [ofTokens.eq_def]
  exact if_neg ht

theorem ofTokens_eq_map (h : ∀ t ∈ tokens, ¬t.isLabel = true) :
    ofTokens tokens = tokens.map ofToken := by
  induction tokens with
  | nil => rfl
  | cons t tokens ih =>
    rw [ofTokens_cons (h t List.mem_cons_self), List.map_cons,
      ih fun t' ht' => h t' (List.mem_cons_of_mem _ ht')]

theorem tokenCount_ofTokens (tokens : List Token) :
    Block.tokenCount (ofTokens tokens) = tokens.length := by
  induction tokens using ofTokens.induct with
  | case1 => rfl
  | case2 t ht => rw [ofTokens, if_pos ht]; rfl
  | case3 t ht name rest hn ih =>
    rw [ofTokens_label ht hn, Block.tokenCount, ih, List.length_cons, List.length_cons]
    simp only [Item.tokenCount]
    omega
  | case4 t ht name rest hn ih =>
    rw [ofTokens_namelessLabel ht hn, Block.tokenCount, ih, List.length_cons (a := t)]
    simp only [Item.tokenCount]
    omega
  | case5 t rest ht ih =>
    rw [ofTokens_cons ht, Block.tokenCount, ih, tokenCount_ofToken, List.length_cons, Nat.add_comm]

/-- A token stands by itself, so that the pieces before it can be cut off, or it
    is the name of a label. Which of them depends on the tokens before it only. -/
theorem ofTokens_append_cons (pre : List Token) (t : Token) :
    (∀ post, ofTokens (pre ++ t :: post) = ofTokens pre ++ ofTokens (t :: post)) ∨
      (t.canBeName = true ∧
        ∃ line, ∀ post, ⟨.label t.text, line⟩ ∈ ofTokens (pre ++ t :: post)) := by
  induction pre using ofTokens.induct with
  | case1 => exact .inl fun _ => rfl
  | case2 d hd =>
    -- The token follows a label directly, and is its name unless it cannot be one.
    simp only [List.singleton_append]
    by_cases ht : t.canBeName = true
    · simp only [ofTokens_label hd ht]
      exact .inr ⟨ht, d.line, fun _ => List.mem_cons_self⟩
    · simp only [ofTokens_namelessLabel hd ht]
      rw [ofTokens, if_pos hd]
      exact .inl fun _ => rfl
  | case3 d hd name rest hn ih =>
    -- From here on, the tokens before are cut into pieces as they would be without the others.
    simp only [List.cons_append, ofTokens_label hd hn]
    rcases ih with h | ⟨ht, line, h⟩
    · exact .inl fun post => congrArg _ (h post)
    · exact .inr ⟨ht, line, fun post => List.mem_cons_of_mem _ (h post)⟩
  | case4 d hd name rest hn ih =>
    simp only [List.cons_append, ofTokens_namelessLabel hd hn] at ih ⊢
    rcases ih with h | ⟨ht, line, h⟩
    · exact .inl fun post => congrArg _ (h post)
    · exact .inr ⟨ht, line, fun post => List.mem_cons_of_mem _ (h post)⟩
  | case5 d rest hd ih =>
    simp only [List.cons_append, ofTokens_cons hd]
    rcases ih with h | ⟨ht, line, h⟩
    · exact .inl fun post => congrArg _ (h post)
    · exact .inr ⟨ht, line, fun post => List.mem_cons_of_mem _ (h post)⟩

/-- A token that cannot be a name stands by itself. -/
theorem ofTokens_append_of_not_canBeName {pre post : List Token} (ht : ¬t.canBeName = true) :
    ofTokens (pre ++ t :: post) = ofTokens pre ++ ofTokens (t :: post) :=
  (ofTokens_append_cons pre t).resolve_right (fun h => ht h.1) post

theorem not_canBeName_of_blockOpen (h : t.text = Token.blockOpen) : ¬t.canBeName = true :=
  fun hn => (text_ne_of_canBeName hn).1 h

theorem not_canBeName_of_blockClose (h : t.text = Token.blockClose) : ¬t.canBeName = true :=
  fun hn => (text_ne_of_canBeName hn).2 h

/-- A piece that becomes a word is one of the tokens, and stands between the pieces of the tokens
    before and after it. -/
theorem exists_token_of_width {tokens : List Token} {pre post : List Piece} {q : Piece}
    (h : ofTokens tokens = pre ++ q :: post) (hq : q.item.width = 1) :
    ∃ i t, tokens[i]? = some t ∧ ¬t.isLabel = true ∧ ofToken t = q ∧
      ofTokens (tokens.take i) = pre ∧ ofTokens (tokens.take (i + 1)) = pre ++ [q] ∧
      ofTokens (tokens.drop (i + 1)) = post := by
  induction tokens using ofTokens.induct generalizing pre with
  | case1 => exact absurd h.symm (List.append_ne_nil_of_right_ne_nil _ (List.cons_ne_nil _ _))
  | case2 t ht =>
    rw [ofTokens, if_pos ht] at h
    rcases List.cons_eq_append_iff.1 h with ⟨rfl, h'⟩ | ⟨pre, rfl, h'⟩
    · obtain ⟨rfl, _⟩ := List.cons.inj h'
      cases hq
    · exact absurd h'.symm (List.append_ne_nil_of_right_ne_nil _ (List.cons_ne_nil _ _))
  | case3 t ht name rest hn ih =>
    rw [ofTokens_label ht hn] at h
    rcases List.cons_eq_append_iff.1 h with ⟨rfl, h'⟩ | ⟨pre, rfl, h'⟩
    · obtain ⟨rfl, _⟩ := List.cons.inj h'
      cases hq
    · obtain ⟨i, t', hi, hl, ht', hp, hp', hd⟩ := ih h'
      refine ⟨i + 2, t', hi, hl, ht', ?_, ?_, hd⟩
      · rw [List.take_succ_cons, List.take_succ_cons, ofTokens_label ht hn, hp]
      · rw [List.take_succ_cons, List.take_succ_cons, ofTokens_label ht hn, hp']
        rfl
  | case4 t ht name rest hn ih =>
    rw [ofTokens_namelessLabel ht hn] at h
    rcases List.cons_eq_append_iff.1 h with ⟨rfl, h'⟩ | ⟨pre, rfl, h'⟩
    · obtain ⟨rfl, _⟩ := List.cons.inj h'
      cases hq
    · obtain ⟨i, t', hi, hl, ht', hp, hp', hd⟩ := ih h'
      refine ⟨i + 1, t', hi, hl, ht', ?_, ?_, hd⟩
      · rw [← hp]
        cases i with
        | zero => rw [List.take_succ_cons, List.take_zero, ofTokens, ofTokens, if_pos ht]
        | succ i => rw [List.take_succ_cons, List.take_succ_cons, ofTokens_namelessLabel ht hn]
      · rw [List.take_succ_cons, List.take_succ_cons, ofTokens_namelessLabel ht hn,
          ← List.take_succ_cons, hp']
        rfl
  | case5 t rest ht ih =>
    rw [ofTokens_cons ht] at h
    rcases List.cons_eq_append_iff.1 h with ⟨rfl, h'⟩ | ⟨pre, rfl, h'⟩
    · obtain ⟨rfl, rfl⟩ := List.cons.inj h'
      refine ⟨0, t, rfl, ht, rfl, rfl, ?_, rfl⟩
      rw [List.take_succ_cons, List.take_zero, ofTokens_cons ht]
      rfl
    · obtain ⟨i, t', hi, hl, ht', hp, hp', hd⟩ := ih h'
      refine ⟨i + 1, t', hi, hl, ht', ?_, ?_, hd⟩
      · rw [List.take_succ_cons, ofTokens_cons ht, hp]
      · rw [List.take_succ_cons, ofTokens_cons ht, hp']
        rfl

/-- An opcode among the pieces of tokens is one of the tokens, and stands between the
    pieces of the tokens before and after it. -/
theorem exists_token_of_operation {tokens : List Token} {pre post : List Piece} {op : Opcode}
    {line : Nat} (h : ofTokens tokens = pre ++ ⟨.operation op, line⟩ :: post) :
    ∃ i t, tokens[i]? = some t ∧ Opcode.ofMnemonic? t.text = some op ∧ op ≠ .label ∧
      ofTokens (tokens.take (i + 1)) = pre ++ [⟨.operation op, line⟩] ∧
      ofTokens (tokens.drop (i + 1)) = post := by
  obtain ⟨i, t, hi, hl, ht, _, hp, hd⟩ := exists_token_of_width h rfl
  -- The token is the opcode, as no other kind of token becomes such a piece.
  have hm : Opcode.ofMnemonic? t.text = some op := by
    rcases ofToken_cases t with ⟨_, hp⟩ | ⟨_, hp⟩ | ⟨_, _, ⟨op', hm, hp⟩ | ⟨_, hp⟩⟩ <;>
      rw [hp] at ht <;> cases ht
    exact hm
  exact ⟨i, t, hi, hm, fun hop => hl (decide_eq_true (hop ▸ hm)), hp, hd⟩

/-! ## Braces -/

theorem closing?_of_blockOpen {depth index : Nat} (h : t.text = Token.blockOpen) :
    Token.closing? depth index (t :: rest) = Token.closing? (depth + 1) (index + 1) rest := by
  rw [Token.closing?.eq_def]
  exact if_pos h

theorem closing?_zero {index : Nat} (h : t.text = Token.blockClose) :
    Token.closing? 0 index (t :: rest) = some index := by
  rw [Token.closing?.eq_def]
  exact (if_neg (by rw [h]; decide)).trans (if_pos h)

theorem closing?_succ {depth index : Nat} (h : t.text = Token.blockClose) :
    Token.closing? (depth + 1) index (t :: rest) = Token.closing? depth (index + 1) rest := by
  rw [Token.closing?.eq_def]
  exact (if_neg (by rw [h]; decide)).trans (if_pos h)

theorem closing?_of_ne {depth index : Nat} (ho : t.text ≠ Token.blockOpen)
    (hc : t.text ≠ Token.blockClose) :
    Token.closing? depth index (t :: rest) = Token.closing? depth (index + 1) rest := by
  rw [Token.closing?.eq_def]
  exact (if_neg ho).trans (if_neg hc)

theorem openings_cons (p : Piece) (pieces : List Piece) :
    openings (p :: pieces) = openings pieces + if p.item = .opening then 1 else 0 := by
  simp only [openings, List.countP_cons, decide_eq_true_eq]

theorem openings_append (pre post : List Piece) :
    openings (pre ++ post) = openings pre + openings post :=
  List.countP_append

theorem openings_ofToken (t : Token) :
    (if (ofToken t).item = .opening then 1 else 0) = if t.text = Token.blockOpen then 1 else 0 := by
  rcases ofToken_cases t with ⟨ho, h⟩ | ⟨hc, h⟩ | ⟨ho, _, ⟨op, _, h⟩ | ⟨_, h⟩⟩ <;> rw [h]
  · rw [if_pos rfl, if_pos ho]
  · rw [if_neg (by simp), if_neg (by rw [hc]; decide)]
  · rw [if_neg (by simp), if_neg ho]
  · rw [if_neg (by simp), if_neg ho]

/-- There are as many braces that open a block among tokens as among their pieces. -/
theorem countP_blockOpen (tokens : List Token) :
    tokens.countP (fun t => t.text = Token.blockOpen) = openings (ofTokens tokens) := by
  induction tokens using ofTokens.induct with
  | case1 => rfl
  | case2 t ht =>
    rw [ofTokens, if_pos ht, List.countP_cons_of_neg (by simp [(text_ne_of_isLabel ht).1])]
    rfl
  | case3 t ht name rest hn ih =>
    rw [ofTokens_label ht hn, List.countP_cons_of_neg (by simp [(text_ne_of_isLabel ht).1]),
      List.countP_cons_of_neg (by simp [(text_ne_of_canBeName hn).1]), ih, openings_cons,
      if_neg (by simp)]
    rfl
  | case4 t ht name rest hn ih =>
    rw [ofTokens_namelessLabel ht hn, List.countP_cons_of_neg (by simp [(text_ne_of_isLabel ht).1]),
      ih, openings_cons, if_neg (by simp)]
    rfl
  | case5 t rest ht ih =>
    rw [ofTokens_cons ht, openings_cons, openings_ofToken, List.countP_cons, ih]
    simp only [decide_eq_true_eq]

end Piece

end GridBots
