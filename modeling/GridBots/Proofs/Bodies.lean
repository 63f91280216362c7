import GridBots.Proofs.Decoding
import GridBots.Proofs.Operands

/-!
# What bodies have to be like

What may be wrong with the body of a source is told from its tokens, without cutting them into
pieces. Its labels have to be followed by names (`Token.labelNames`), its braces have to be
balanced (`Token.Balanced`), and there may be at most 512 blocks (`blockFault?_eq_none_iff`). Then
its layout is without faults if no instruction has more than seven operands
(`layoutFault?_eq_none`). The tokens that become words are `Token.written`.
-/

namespace GridBots

namespace Token

/-- How many tokens open a block. -/
def opened (tokens : List Token) : Nat :=
  tokens.countP fun t => t.text = blockOpen

/-- How many tokens close a block. -/
def closed (tokens : List Token) : Nat :=
  tokens.countP fun t => t.text = blockClose

/-- Braces are balanced, where `depth` blocks have been opened before: no brace closes a block
    that is not open, and in the end none is open. -/
structure Balanced (depth : Nat) (tokens : List Token) : Prop where
  closed_take_le : ∀ i, closed (tokens.take i) ≤ depth + opened (tokens.take i)
  closed_eq : closed tokens = depth + opened tokens

/-- The tokens after those that begin labels, whatever they are; none is after the last token.
    The token after a label does not begin a label itself. -/
def labelNames : List Token → List (Option Token)
  | [] => []
  | t :: rest =>
    if t.isLabel then
      match rest with
      | [] => [none]
      | name :: rest => some name :: labelNames rest
    else labelNames rest

/-- The tokens that become words: all but labels with their names, and braces that close a
    block. -/
def written : List Token → List Token
  | [] => []
  | t :: rest =>
    if t.isLabel then
      match rest with
      | [] => []
      | _ :: rest => written rest
    else if t.text = blockClose then written rest
    else t :: written rest

/-- Whether a token is the opcode of an instruction that ends the tick. -/
def isEnd (t : Token) : Bool :=
  Opcode.ofMnemonic? t.text = some .halt

variable {t name : Token} {rest : List Token}

/-! ## Labels -/

theorem labelNames_label (ht : t.isLabel = true) :
    labelNames (t :: name :: rest) = some name :: labelNames rest := by
  rw [labelNames, if_pos ht]

theorem labelNames_cons (ht : ¬t.isLabel = true) : labelNames (t :: rest) = labelNames rest := by
  rw [labelNames.eq_def]
  exact if_neg ht

theorem written_label (ht : t.isLabel = true) : written (t :: name :: rest) = written rest := by
  rw [written, if_pos ht]

theorem written_blockClose (ht : t.text = blockClose) : written (t :: rest) = written rest := by
  rw [written.eq_def]
  simp only [Piece.not_isLabel_of_blockClose ht, ht, if_true]
  rfl

theorem written_cons (ht : ¬t.isLabel = true) (hc : t.text ≠ blockClose) :
    written (t :: rest) = t :: written rest := by
  rw [written.eq_def]
  simp only [ht, hc, if_false]
  rfl

/-! ## Braces -/

theorem opened_cons (t : Token) (rest : List Token) :
    opened (t :: rest) = opened [t] + opened rest := by
  rw [← List.singleton_append, opened, List.countP_append, opened, opened]

theorem closed_cons (t : Token) (rest : List Token) :
    closed (t :: rest) = closed [t] + closed rest := by
  rw [← List.singleton_append, closed, List.countP_append, closed, closed]

theorem balanced_nil_iff {depth : Nat} : Balanced depth [] ↔ depth = 0 := by
  constructor
  · intro h
    exact (Nat.eq_zero_of_add_eq_zero_right h.closed_eq.symm)
  · rintro rfl
    exact ⟨fun i => by rw [List.take_nil]; exact Nat.zero_le _, rfl⟩

/-- Balanced braces are balanced after the first token, where it is open what it opens and
    closed what it closes. -/
theorem balanced_cons_iff {depth later : Nat} (h : depth + opened [t] = later + closed [t]) :
    Balanced depth (t :: rest) ↔ Balanced later rest := by
  constructor
  · rintro ⟨hle, heq⟩
    rw [closed_cons, opened_cons] at heq
    refine ⟨fun i => ?_, by omega⟩
    have hi := hle (i + 1)
    rw [List.take_succ_cons, closed_cons, opened_cons] at hi
    omega
  · rintro ⟨hle, heq⟩
    refine ⟨fun i => ?_, by rw [closed_cons, opened_cons]; omega⟩
    cases i with
    | zero => exact Nat.zero_le _
    | succ i =>
      have hi := hle i
      rw [List.take_succ_cons, closed_cons, opened_cons]
      omega

theorem opened_of_blockOpen (h : t.text = blockOpen) : opened [t] = 1 :=
  List.countP_eq_length_filter.trans (by simp [h])

theorem opened_of_ne (h : t.text ≠ blockOpen) : opened [t] = 0 :=
  List.countP_eq_length_filter.trans (by simp [h])

theorem closed_of_blockClose (h : t.text = blockClose) : closed [t] = 1 :=
  List.countP_eq_length_filter.trans (by simp [h])

theorem closed_of_ne (h : t.text ≠ blockClose) : closed [t] = 0 :=
  List.countP_eq_length_filter.trans (by simp [h])

theorem balanced_blockOpen_iff {depth : Nat} (h : t.text = blockOpen) :
    Balanced depth (t :: rest) ↔ Balanced (depth + 1) rest :=
  balanced_cons_iff (by rw [opened_of_blockOpen h, closed_of_ne (by rw [h]; decide)])

theorem balanced_blockClose_iff {depth : Nat} (h : t.text = blockClose) :
    Balanced (depth + 1) (t :: rest) ↔ Balanced depth rest :=
  balanced_cons_iff (by rw [opened_of_ne (by rw [h]; decide), closed_of_blockClose h])

theorem not_balanced_of_blockClose (h : t.text = blockClose) : ¬Balanced 0 (t :: rest) := by
  intro hb
  have hle := hb.closed_take_le 1
  rw [List.take_succ_cons, List.take_zero, closed_of_blockClose h,
    opened_of_ne (by rw [h]; decide)] at hle
  omega

theorem balanced_of_ne_iff {depth : Nat} (ho : t.text ≠ blockOpen) (hc : t.text ≠ blockClose) :
    Balanced depth (t :: rest) ↔ Balanced depth rest :=
  balanced_cons_iff (by rw [opened_of_ne ho, closed_of_ne hc])

end Token

/-! ## Pieces -/

namespace Piece

variable {tokens : List Token} {p : Piece} {pieces : List Piece}

/-- Every label among pieces has a name. -/
def Named (pieces : List Piece) : Prop :=
  ∀ p ∈ pieces, p.item ≠ .namelessLabel

theorem named_nil : Named [] :=
  fun _ h => absurd h List.not_mem_nil

theorem named_cons_iff : Named (p :: pieces) ↔ p.item ≠ .namelessLabel ∧ Named pieces :=
  List.forall_mem_cons

theorem named_cons (hp : p.item ≠ .namelessLabel) : Named (p :: pieces) ↔ Named pieces :=
  named_cons_iff.trans (and_iff_right hp)

theorem not_named_namelessLabel {line : Nat} : ¬Named (⟨.namelessLabel, line⟩ :: pieces) :=
  fun h => (named_cons_iff.1 h).1 rfl

theorem named_ofToken (t : Token) : (ofToken t).item ≠ .namelessLabel := by
  rcases ofToken_cases t with ⟨_, h⟩ | ⟨_, h⟩ | ⟨_, _, ⟨_, _, h⟩ | ⟨_, h⟩⟩ <;> rw [h] <;> simp

/-- Every label has a name if the tokens after labels may be names. -/
theorem named_ofTokens_iff :
    Named (ofTokens tokens) ↔
      ∀ n ∈ Token.labelNames tokens, ∃ name : Token, n = some name ∧ name.canBeName = true := by
  induction tokens using ofTokens.induct with
  | case1 =>
    exact iff_of_true named_nil fun _ h => absurd h List.not_mem_nil
  | case2 t ht =>
    rw [ofTokens, if_pos ht, Token.labelNames, if_pos ht]
    refine iff_of_false not_named_namelessLabel fun h => ?_
    obtain ⟨_, hn, _⟩ := h _ List.mem_cons_self
    cases hn
  | case3 t ht name rest hn ih =>
    rw [ofTokens_label ht hn, Token.labelNames_label ht, named_cons_iff, List.forall_mem_cons, ← ih]
    exact and_congr_left fun _ => iff_of_true (by simp) ⟨name, rfl, hn⟩
  | case4 t ht name rest hn ih =>
    rw [ofTokens_namelessLabel ht hn, Token.labelNames_label ht]
    refine iff_of_false not_named_namelessLabel fun h => ?_
    obtain ⟨_, hname, hcan⟩ := h _ List.mem_cons_self
    cases hname
    exact hn hcan
  | case5 t rest ht ih =>
    rw [ofTokens_cons ht, Token.labelNames_cons ht, ← ih]
    exact named_cons (named_ofToken t)

/-- The names that labels define are those after them. -/
theorem map_fst_labels {address : Nat} (h : Named (ofTokens tokens)) :
    (labels address (ofTokens tokens)).map Prod.fst =
      (Token.labelNames tokens).filterMap (Option.map Token.text) := by
  induction tokens using ofTokens.induct generalizing address with
  | case1 => rfl
  | case2 t ht =>
    rw [ofTokens, if_pos ht] at h
    exact absurd h not_named_namelessLabel
  | case3 t ht name rest hn ih =>
    rw [ofTokens_label ht hn] at h ⊢
    rw [Token.labelNames_label ht, labels, List.map_cons, ih (named_cons_iff.1 h).2]
    rfl
  | case4 t ht name rest hn ih =>
    rw [ofTokens_namelessLabel ht hn] at h
    exact absurd h not_named_namelessLabel
  | case5 t rest ht ih =>
    rw [ofTokens_cons ht] at h ⊢
    have hlater := (named_cons_iff.1 h).2
    rw [Token.labelNames_cons ht]
    rcases ofToken_cases t with ⟨_, hp⟩ | ⟨_, hp⟩ | ⟨_, _, ⟨_, _, hp⟩ | ⟨_, hp⟩⟩ <;>
      rw [hp] <;> exact ih hlater

end Piece

/-! ## Blocks -/

/-- Nothing is wrong with the braces and labels of tokens if labels have names, braces are
    balanced and there are not too many blocks. -/
theorem Block.firstFault?_eq_none_iff {count : Nat} {unclosed : List Nat} {tokens : List Token}
    (hc : count ≤ cap) :
    firstFault? count unclosed (Piece.ofTokens tokens) = none ↔
      Piece.Named (Piece.ofTokens tokens) ∧ Token.Balanced unclosed.length tokens ∧
        count + Token.opened tokens ≤ cap := by
  induction tokens using Piece.ofTokens.induct generalizing count unclosed with
  | case1 =>
    rw [Token.balanced_nil_iff, List.length_eq_zero_iff]
    cases unclosed with
    | nil => exact iff_of_true rfl ⟨Piece.named_nil, rfl, hc⟩
    | cons _ _ => exact iff_of_false (Option.some_ne_none _) fun h => List.cons_ne_nil _ _ h.2.1
  | case2 t ht =>
    rw [Piece.ofTokens, if_pos ht]
    exact iff_of_false (Option.some_ne_none _) fun h => Piece.not_named_namelessLabel h.1
  | case3 t ht name rest hn ih =>
    -- Neither the label nor its name is a brace.
    obtain ⟨ho, hcl⟩ := Piece.text_ne_of_isLabel ht
    obtain ⟨ho', hcl'⟩ := Piece.text_ne_of_canBeName hn
    rw [Piece.ofTokens_label ht hn, Piece.named_cons (by simp), Token.balanced_of_ne_iff ho hcl,
      Token.balanced_of_ne_iff ho' hcl', Token.opened_cons, Token.opened_of_ne ho,
      Token.opened_cons, Token.opened_of_ne ho', Nat.zero_add, Nat.zero_add]
    exact ih hc
  | case4 t ht name rest hn ih =>
    rw [Piece.ofTokens_namelessLabel ht hn]
    exact iff_of_false (Option.some_ne_none _) fun h => Piece.not_named_namelessLabel h.1
  | case5 t rest ht ih =>
    rw [Piece.ofTokens_cons ht, Piece.named_cons (Piece.named_ofToken t), Token.opened_cons]
    rcases Piece.ofToken_cases t with ⟨ho, hp⟩ | ⟨hcl, hp⟩ | ⟨ho, hcl, ⟨op, _, hp⟩ | ⟨_, hp⟩⟩ <;>
      rw [hp]
    · rw [firstFault?, Token.balanced_blockOpen_iff ho, Token.opened_of_blockOpen ho]
      by_cases hcap : cap ≤ count
      · rw [if_pos hcap]
        exact iff_of_false (Option.some_ne_none _) fun h => by omega
      · have hlater := @ih (count + 1) (t.line :: unclosed) (Nat.lt_of_not_le hcap)
        rw [List.length_cons, Nat.add_assoc] at hlater
        rw [if_neg hcap]
        exact hlater
    · rw [Token.opened_of_ne (by rw [hcl]; decide), Nat.zero_add]
      cases unclosed with
      | nil =>
        exact iff_of_false (Option.some_ne_none _)
          fun h => Token.not_balanced_of_blockClose hcl h.2.1
      | cons _ unclosed =>
        rw [List.length_cons, Token.balanced_blockClose_iff hcl]
        exact ih hc
    · rw [Token.balanced_of_ne_iff ho hcl, Token.opened_of_ne ho, Nat.zero_add]
      exact ih hc
    · rw [Token.balanced_of_ne_iff ho hcl, Token.opened_of_ne ho, Nat.zero_add]
      exact ih hc

/-! ## Layouts -/

namespace Layout

open Block (widthOf tokenCount)

variable {pieces : List Piece} {widths : List Nat} {tokens : List Token}

theorem exists_pending_or {pending? : Option Pending} {x : Option AssemblyError}
    {e : AssemblyError} (h : (pending?.bind Pending.fault? <|> x) = some e) :
    (∃ p, pending? = some p ∧ Header.maxOperands ≤ p.operands) ∨ x = some e := by
  cases pending? with
  | none => exact .inr h
  | some p =>
    rw [Option.bind_some, Pending.fault?] at h
    split at h
    · exact .inr h
    · next hp => exact .inl ⟨p, rfl, Nat.not_lt.1 hp⟩

/-- If an instruction has too many operands, it is the one that is being read, or it begins
    with an opcode later on. -/
theorem exists_of_tooManyOperands {blocks room line : Nat} {pending? : Option Pending}
    (h : firstFault? blocks room pending? pieces = some ⟨.tooManyOperands, line⟩) :
    (∃ p, pending? = some p ∧
        Header.maxOperands < p.operands + (operandFlags pieces).length) ∨
      ∃ pre op l post, pieces = pre ++ ⟨.operation op, l⟩ :: post ∧
        Header.maxOperands < (operandFlags post).length := by
  induction pieces generalizing blocks room pending? with
  | nil => cases h
  | cons p pieces ih =>
    obtain ⟨item, l⟩ := p
    -- An instruction that begins later on does so here, too.
    have hlater : (∃ pre op l post, pieces = pre ++ ⟨.operation op, l⟩ :: post ∧
          Header.maxOperands < (operandFlags post).length) →
        ∃ pre op l' post, ⟨item, l⟩ :: pieces = pre ++ ⟨.operation op, l'⟩ :: post ∧
          Header.maxOperands < (operandFlags post).length := by
      rintro ⟨pre, op, l', post, rfl, hlt⟩
      exact ⟨⟨item, l⟩ :: pre, op, l', post, rfl, hlt⟩
    have hnone : ∀ {blocks room}, firstFault? blocks room none pieces =
          some ⟨.tooManyOperands, line⟩ →
        ∃ pre op l' post, ⟨item, l⟩ :: pieces = pre ++ ⟨.operation op, l'⟩ :: post ∧
          Header.maxOperands < (operandFlags post).length := by
      intro blocks room h
      rcases ih h with ⟨p, hp, _⟩ | hafter
      · cases hp
      · exact hlater hafter
    cases item with
    | opening =>
      rw [firstFault?] at h
      split at h
      · cases h
      rcases exists_pending_or h with ⟨p, hp, hle⟩ | h
      · exact .inl ⟨p, hp, Nat.lt_succ_of_le hle⟩
      split at h
      · cases h
      · exact .inr (hnone h)
    | closing => exact .inr (hnone h)
    | namelessLabel => cases h
    | label name =>
      rw [firstFault?] at h
      split at h
      · cases h
      · exact .inr (hnone h)
    | operation op =>
      rw [firstFault?] at h
      split at h
      · cases h
      rcases ih h with ⟨p, hp, hlt⟩ | hafter
      · cases hp
        rw [Nat.zero_add] at hlt
        exact .inr ⟨[], op, l, pieces, rfl, hlt⟩
      · exact .inr (hlater hafter)
    | operand text immediate =>
      rw [firstFault?] at h
      rcases exists_pending_or h with ⟨p, hp, hle⟩ | h
      · exact .inl ⟨p, hp, Nat.lt_of_le_of_lt hle (by rw [operandFlags, List.length_cons]; omega)⟩
      split at h
      · cases h
      rcases ih h with ⟨more, hmore, hlt⟩ | hafter
      · obtain ⟨p, hp, rfl⟩ := Option.map_eq_some_iff.1 hmore
        refine .inl ⟨p, hp, ?_⟩
        change Header.maxOperands < p.operands + 1 + (operandFlags pieces).length at hlt
        rw [operandFlags, List.length_cons]
        omega
      · exact .inr (hlater hafter)

/-- There is a layout of tokens, without faults in their braces and labels, if each instruction
    has at most seven operands. -/
theorem exists_place (hcap : tokens.length ≤ Source.tokenCap)
    (hf : Block.fault? (Piece.ofTokens tokens) = none)
    (hs : ∀ i t, tokens[i]? = some t → t.isOperation = true →
      (Token.operandSpan (tokens.drop (i + 1))).length ≤ Header.maxOperands) :
    place (Piece.ofTokens tokens) (Block.ofPieces 0 (Piece.ofTokens tokens)) =
      .ok (ofPieces (Layout.widths (Piece.ofTokens tokens)) (Piece.ofTokens tokens)) := by
  rcases place_eq_ok_or hcap (Block.find_eq_ok_iff.2 ⟨hf, rfl⟩) with ⟨l, hl⟩ | ⟨line, he⟩
  · obtain ⟨_, rfl⟩ := place_eq_ok_iff.1 hl
    exact hl
  · exfalso
    rcases exists_of_tooManyOperands (place_eq_error_iff.1 he) with
      ⟨_, hp, _⟩ | ⟨pre, op, l, post, hp, hlt⟩
    · cases hp
    · obtain ⟨i, t, hi, hm, hop, _, rfl⟩ := Piece.exists_token_of_operation hp
      rw [Piece.operandFlags_ofTokens, List.length_map] at hlt
      exact Nat.not_lt.2 (hs i t hi (Token.isOperation_iff.2 ⟨op, hm, hop⟩)) hlt

/-- Labels take two tokens each, and no word. -/
theorem two_mul_length_le (widths : List Nat) (pieces : List Piece) :
    2 * (ofPieces widths pieces).length ≤ tokenCount pieces + widthOf pieces := by
  induction pieces generalizing widths with
  | nil => exact Nat.le_refl 0
  | cons p pieces ih =>
    obtain ⟨item, line⟩ := p
    rw [tokenCount, widthOf]
    have hlater := ih (if item = .opening then widths.tail else widths)
    cases item with
    | opening =>
      change 2 * ((ofPieces widths.tail pieces).length + 1) ≤ 1 + _ + (1 + _)
      change 2 * (ofPieces widths.tail pieces).length ≤ _ at hlater
      omega
    | closing | namelessLabel =>
      change 2 * (ofPieces widths pieces).length ≤ 1 + _ + (0 + _)
      change 2 * (ofPieces widths pieces).length ≤ _ at hlater
      omega
    | label _ =>
      change 2 * ((ofPieces widths pieces).length + 1) ≤ 2 + _ + (0 + _)
      change 2 * (ofPieces widths pieces).length ≤ _ at hlater
      omega
    | operation _ | operand _ _ =>
      change 2 * ((ofPieces widths pieces).length + 1) ≤ 1 + _ + (1 + _)
      change 2 * (ofPieces widths pieces).length ≤ _ at hlater
      omega

/-! ## Words -/

/-- The words that end the tick are those of the opcodes that do. -/
theorem map_isEnd_slots (hn : Piece.Named (Piece.ofTokens tokens)) :
    (ofPieces widths (Piece.ofTokens tokens)).slots.map (fun s => isEnd s.1) =
      (Token.written tokens).map Token.isEnd := by
  induction tokens using Piece.ofTokens.induct generalizing widths with
  | case1 => rfl
  | case2 t ht =>
    rw [Piece.ofTokens, if_pos ht] at hn
    exact absurd hn Piece.not_named_namelessLabel
  | case3 t ht name rest hname ih =>
    rw [Piece.ofTokens_label ht hname] at hn ⊢
    rw [Token.written_label ht]
    exact ih (Piece.named_cons_iff.1 hn).2
  | case4 t ht name rest hname ih =>
    rw [Piece.ofTokens_namelessLabel ht hname] at hn
    exact absurd hn Piece.not_named_namelessLabel
  | case5 t rest ht ih =>
    rw [Piece.ofTokens_cons ht] at hn ⊢
    have hlater := (Piece.named_cons_iff.1 hn).2
    rcases Piece.ofToken_cases t with ⟨ho, hp⟩ | ⟨hc, hp⟩ | ⟨ho, hc, ⟨op, hm, hp⟩ | ⟨hm, hp⟩⟩ <;>
      rw [hp]
    · have hend : t.isEnd = false := by
        rw [Token.isEnd, ho]
        rfl
      rw [Token.written_cons ht (by rw [ho]; decide), List.map_cons, hend, ← ih hlater]
      rfl
    · rw [Token.written_blockClose hc, ← ih hlater]
      rfl
    · have hend : t.isEnd =
          isEnd (.instruction (Header.ofFlags op (operandFlags (Piece.ofTokens rest)))) := by
        rw [Token.isEnd, hm, isEnd, Header.opcode_ofFlags, decide_eq_decide, Option.some_inj]
        exact ⟨congrArg Opcode.value, Header.opcode_eq_of_value_eq⟩
      rw [Token.written_cons ht hc, List.map_cons, hend, ← ih hlater]
      rfl
    · have hend : t.isEnd = false := by
        rw [Token.isEnd, hm]
        rfl
      rw [Token.written_cons ht hc, List.map_cons, hend, ← ih hlater]
      rfl

theorem length_slots_eq_written (hn : Piece.Named (Piece.ofTokens tokens)) :
    (ofPieces widths (Piece.ofTokens tokens)).slots.length = (Token.written tokens).length := by
  rw [← List.length_map (fun s => isEnd s.1), map_isEnd_slots hn, List.length_map]

/-- A layout ends with an instruction that ends the tick if the last token that becomes a word
    is the opcode of one. -/
theorem isTerminated_eq_written (hn : Piece.Named (Piece.ofTokens tokens)) :
    (ofPieces widths (Piece.ofTokens tokens)).isTerminated =
      (Token.written tokens).getLast?.any Token.isEnd := by
  have hlast : ((ofPieces widths (Piece.ofTokens tokens)).slots.map fun s => isEnd s.1).getLast? =
      ((Token.written tokens).map Token.isEnd).getLast? := congrArg _ (map_isEnd_slots hn)
  rw [List.getLast?_map, List.getLast?_map] at hlast
  have hany := congrArg (Option.any id) hlast
  rwa [Option.any_map, Option.any_map] at hany

end Layout

end GridBots
