import GridBots.Proofs.Faults
import GridBots.Proofs.Stages

/-!
# Addresses of blocks and labels

Words are counted several times while a program is assembled: as widths of blocks, as
slots of the layout, as addresses of labels, and as the words that are written. The
counts agree (`word_counts_agree`): where a block says how many words it has, the brace
that closes it follows as many words later, and a label is the address of the word
after it, however blocks are nested and wherever labels stand in them.
-/

namespace GridBots

open Layout (emitted skips)
open Piece (openings)

theorem eq_take_cons_drop {α : Type} {l : List α} {i : Nat} {a : α} (h : l[i]? = some a) :
    l = l.take i ++ a :: l.drop (i + 1) := by
  obtain ⟨hi, rfl⟩ := List.getElem?_eq_some_iff.1 h
  rw [← List.drop_eq_getElem_cons hi, List.take_append_drop]

theorem drop_eq_cons {α : Type} {l : List α} {i : Nat} {a : α} (h : l[i]? = some a) :
    l.drop i = a :: l.drop (i + 1) := by
  obtain ⟨hi, rfl⟩ := List.getElem?_eq_some_iff.1 h
  exact List.drop_eq_getElem_cons hi

/-! ## Blocks among tokens -/

/-- Pieces are as many as they are in one way only: with as many tokens. -/
theorem Block.eq_of_append_eq {pre post pre' post' : List Piece} (h : pre ++ post = pre' ++ post')
    (hc : tokenCount pre = tokenCount pre') : pre = pre' := by
  have hnil : ∀ pieces, tokenCount pieces = 0 → pieces = [] := fun pieces hp => by
    cases pieces with
    | nil => rfl
    | cons p pieces =>
      obtain ⟨item, line⟩ := p
      rw [tokenCount] at hp
      cases item <;> simp only [Item.tokenCount] at hp <;> omega
  rcases List.append_eq_append_iff.1 h with ⟨m, rfl, _⟩ | ⟨m, rfl, _⟩
  · rw [tokenCount_append] at hc
    rw [hnil m (by omega), List.append_nil]
  · rw [tokenCount_append] at hc
    rw [hnil m (by omega), List.append_nil]

theorem Token.text_of_closing? {depth index close : Nat} {tokens : List Token}
    (h : closing? depth index tokens = some close) :
    ∃ j t, close = index + j ∧ tokens[j]? = some t ∧ t.text = blockClose := by
  induction tokens generalizing depth index with
  | nil => cases h
  | cons t rest ih =>
    by_cases ho : t.text = blockOpen
    · rw [Piece.closing?_of_blockOpen ho] at h
      obtain ⟨j, t', rfl, ht, hc⟩ := ih h
      exact ⟨j + 1, t', by omega, ht, hc⟩
    by_cases hc : t.text = blockClose
    · cases depth with
      | zero =>
        rw [Piece.closing?_zero hc] at h
        exact ⟨0, t, (Option.some.inj h).symm, rfl, hc⟩
      | succ depth =>
        rw [Piece.closing?_succ hc] at h
        obtain ⟨j, t', rfl, ht, hc⟩ := ih h
        exact ⟨j + 1, t', by omega, ht, hc⟩
    · rw [Piece.closing?_of_ne ho hc] at h
      obtain ⟨j, t', rfl, ht, hc⟩ := ih h
      exact ⟨j + 1, t', by omega, ht, hc⟩

section Braces

variable {tokens : List Token} {i close : Nat} {t : Token}

/-- A brace that opens a block stands between the pieces of the tokens before and after it. -/
theorem Piece.ofTokens_of_blockOpen (hi : tokens[i]? = some t) (ht : t.text = Token.blockOpen) :
    ofTokens tokens =
      ofTokens (tokens.take i) ++ ⟨.opening, t.line⟩ :: ofTokens (tokens.drop (i + 1)) := by
  conv_lhs => rw [eq_take_cons_drop hi]
  rw [ofTokens_append_of_not_canBeName (not_canBeName_of_blockOpen ht),
    ofTokens_cons (by rw [not_isLabel_of_blockOpen ht]; exact Bool.false_ne_true),
    ofToken_blockOpen ht]

theorem Piece.ofTokens_of_blockClose (hi : tokens[i]? = some t) (ht : t.text = Token.blockClose) :
    ofTokens tokens =
      ofTokens (tokens.take i) ++ ⟨.closing, t.line⟩ :: ofTokens (tokens.drop (i + 1)) := by
  conv_lhs => rw [eq_take_cons_drop hi]
  rw [ofTokens_append_of_not_canBeName (not_canBeName_of_blockClose ht),
    ofTokens_cons (by rw [not_isLabel_of_blockClose ht]; exact Bool.false_ne_true),
    ofToken_blockClose ht]

theorem Piece.tokenCount_ofTokens_take (hi : tokens[i]? = some t) :
    Block.tokenCount (ofTokens (tokens.take i)) = i := by
  rw [tokenCount_ofTokens, List.length_take,
    Nat.min_eq_left (Nat.le_of_lt (List.getElem?_eq_some_iff.1 hi).1)]

/-- A block that is opened without a fault is closed after what is inside of it. -/
theorem Block.closing?_of_blockOpen (hf : fault? (Piece.ofTokens tokens) = none)
    (hi : tokens[i]? = some t) (ht : t.text = Token.blockOpen) :
    Token.closing? 0 (i + 1) (tokens.drop (i + 1)) =
      some (i + 1 + tokenCount (inside 0 (Piece.ofTokens (tokens.drop (i + 1))))) := by
  rw [fault?, Piece.ofTokens_of_blockOpen hi ht] at hf
  obtain ⟨_, _, hf⟩ := firstFault?_of_append hf
  exact closing?_eq (firstFault?_of_opening hf) (Nat.zero_lt_succ _)

/-- Before the brace that closes a block are the pieces before the block, the brace that
    opens it, and the pieces inside of it. -/
theorem Block.ofTokens_take_close (hf : fault? (Piece.ofTokens tokens) = none)
    (hi : tokens[i]? = some t) (ht : t.text = Token.blockOpen)
    (hc : Token.closing? 0 (i + 1) (tokens.drop (i + 1)) = some close) :
    Piece.ofTokens (tokens.take close) = Piece.ofTokens (tokens.take i) ++
        ⟨.opening, t.line⟩ :: inside 0 (Piece.ofTokens (tokens.drop (i + 1))) ∧
      ∃ line rest, Piece.ofTokens tokens =
        Piece.ofTokens (tokens.take close) ++ ⟨.closing, line⟩ :: rest := by
  have hclose : close = i + 1 + tokenCount (inside 0 (Piece.ofTokens (tokens.drop (i + 1)))) :=
    Option.some.inj (hc.symm.trans (closing?_of_blockOpen hf hi ht))
  obtain ⟨j, t', hj, ht', htc⟩ := Token.text_of_closing? hc
  rw [List.getElem?_drop, ← hj] at ht'
  have hp := Piece.ofTokens_of_blockOpen hi ht
  have hp' := Piece.ofTokens_of_blockClose ht' htc
  rw [fault?, hp] at hf
  obtain ⟨_, _, hf⟩ := firstFault?_of_append hf
  obtain ⟨line, rest, hr⟩ := exists_closing (firstFault?_of_opening hf) (Nat.zero_lt_succ _)
  -- Both are what comes first among the pieces, with as many tokens.
  have happ : Piece.ofTokens (tokens.take close) ++ ⟨.closing, t'.line⟩ ::
      Piece.ofTokens (tokens.drop (close + 1)) = (Piece.ofTokens (tokens.take i) ++
        ⟨.opening, t.line⟩ :: inside 0 (Piece.ofTokens (tokens.drop (i + 1)))) ++
          ⟨.closing, line⟩ :: rest := by
    rw [← hp', hp, List.append_assoc, List.cons_append, ← hr]
  refine ⟨eq_of_append_eq happ ?_, _, _, hp'⟩
  rw [Piece.tokenCount_ofTokens_take ht', tokenCount_append, Piece.tokenCount_ofTokens_take hi,
    tokenCount, hclose, Nat.add_assoc]
  rfl

end Braces

/-! ## Slots of blocks -/

namespace Layout

variable {tokens : List Token} {i close : Nat} {t : Token}

/-- Up to the brace that closes a block, a word has been placed for the brace that opens
    it, after those before it and before those that it counts. -/
theorem emitted_take_close (hf : Block.fault? (Piece.ofTokens tokens) = none)
    (hi : tokens[i]? = some t) (ht : t.text = Token.blockOpen)
    (hc : Token.closing? 0 (i + 1) (tokens.drop (i + 1)) = some close) :
    emitted (tokens.take close) = emitted (tokens.take i) + 1 +
      Block.widthOf (Block.inside 0 (Piece.ofTokens (tokens.drop (i + 1)))) := by
  rw [emitted_eq_widthOf, emitted_eq_widthOf, (Block.ofTokens_take_close hf hi ht hc).1,
    Block.widthOf_append, Block.widthOf, Nat.add_assoc]
  rfl

/-- The slot of a brace that opens a block, and the number of such slots before it. -/
theorem slot_of_blockOpen (hi : tokens[i]? = some t) (ht : t.text = Token.blockOpen) :
    (ofPieces (widths (Piece.ofTokens tokens))
        (Piece.ofTokens tokens)).slots[emitted (tokens.take i)]? =
      some (.skip (Block.widthOf (Block.inside 0 (Piece.ofTokens (tokens.drop (i + 1))))),
        t.line) ∧
      skips ((ofPieces (widths (Piece.ofTokens tokens)) (Piece.ofTokens tokens)).slots.take
        (emitted (tokens.take i))) = (tokens.take i).countP fun t => t.text = Token.blockOpen := by
  rw [Piece.countP_blockOpen, emitted_eq_widthOf, Piece.ofTokens_of_blockOpen hi ht]
  exact ⟨getElem?_slots_opening _ _ _, skips_take_slots_ofPieces _ _ _⟩

/-- The layout of the tokens before a brace has the same blocks. -/
theorem place_take_close {blocks : List Block} {l : Layout}
    (hf : Block.fault? (Piece.ofTokens tokens) = none)
    (hl : place (Piece.ofTokens tokens) blocks = .ok l)
    (hi : tokens[i]? = some t) (ht : t.text = Token.blockOpen)
    (hc : Token.closing? 0 (i + 1) (tokens.drop (i + 1)) = some close) :
    ∃ l', place (Piece.ofTokens (tokens.take close)) blocks = .ok l' ∧
      l'.slots.length = emitted (tokens.take close) := by
  obtain ⟨_, line, rest, hp⟩ := Block.ofTokens_take_close hf hi ht hc
  have hl' := (place_eq_ok_iff.1 hl).1
  rw [fault?, hp] at hl'
  refine ⟨_, place_eq_ok_iff.2 ⟨(firstFault?_append_eq_none hl').1, rfl⟩, ?_⟩
  rw [length_slots_ofPieces, emitted_eq_widthOf]

/-! ## Labels -/

theorem bindLabels_append (address : Nat) (t : SymbolTable) (l l' : Layout) :
    bindLabels address t (l ++ l') =
      bindLabels address t l >>= fun t => bindLabels (address + l.slots.length) t l' := by
  induction l generalizing address t with
  | nil => rfl
  | cons p l ih =>
    cases p with
    | slot s line =>
      rw [List.cons_append, bindLabels, ih, bindLabels, slots, List.length_cons, Nat.add_right_comm,
        Nat.add_assoc]
    | label name line =>
      rw [List.cons_append, bindLabels, bindLabels, slots]
      simp only [bind_assoc, ih]

end Layout

theorem toInt_ofNat_of_le_cap {n : Nat} (h : n ≤ Program.cap) : (Int32.ofNat n).toInt = n :=
  Int32.toInt_ofNat_of_lt (Nat.lt_of_le_of_lt h (by decide))

namespace Source.Stages

variable {s : Source} {p : Program} (st : s.Stages p)

/-- A label is defined to be the number of words before it, when that many have been
    counted. -/
theorem exists_bindLabels {pre post : List Piece} {name : String} {line : Nat}
    (h : s.pieces = pre ++ ⟨.label name, line⟩ :: post) :
    ∃ before after t₁ t₂, st.layout = before ++ .label name line :: after ∧
      before.slots.length = Block.widthOf pre ∧
      Layout.bindLabels 0 st.aliases before = .ok t₁ ∧
      t₁.define name (.number (Int32.ofNat (Block.widthOf pre))) = .ok t₂ ∧
      Layout.bindLabels (Block.widthOf pre) t₂ after = .ok st.labels := by
  obtain ⟨before, hb, hl⟩ :=
    Layout.exists_ofPieces_append (Layout.widths s.pieces) pre (⟨.label name, line⟩ :: post)
  have hs : st.layout = before ++ .label name line ::
      Layout.ofPieces ((Layout.widths s.pieces).drop (openings pre)) post := by
    rw [← st.layout_eq]
    exact (congrArg (Layout.ofPieces _) h).trans hb
  have hbind := st.bindLabels_eq
  rw [hs, Layout.bindLabels_append, except_bind_eq_ok, Nat.zero_add, hl] at hbind
  obtain ⟨t₁, h₁, hbind⟩ := hbind
  obtain ⟨_, t₂, h₂, hbind⟩ := Layout.bindLabels_label_eq_ok.1 hbind
  exact ⟨before, _, t₁, t₂, hs, hl, h₁, h₂, hbind⟩

include st

/-- The name of a label is not built in. -/
theorem isReserved_of_label {name : String} {line : Nat}
    (h : ⟨.label name, line⟩ ∈ s.pieces) : SymbolTable.isReserved name = false := by
  obtain ⟨pre, post, hp⟩ := List.append_of_mem h
  obtain ⟨_, _, _, _, _, _, _, hd, _⟩ := st.exists_bindLabels hp
  exact SymbolTable.isReserved_of_define hd

/-- An opcode stands by itself in the body of a program: it is not the name of a label. -/
theorem pieces_of_ofMnemonic? {pre post : List Token} {t : Token} {op : Opcode}
    (h : s.body = pre ++ t :: post) (ht : Opcode.ofMnemonic? t.text = some op) (rest : List Token) :
    Piece.ofTokens (pre ++ t :: rest) = Piece.ofTokens pre ++ Piece.ofTokens (t :: rest) := by
  refine (Piece.ofTokens_append_cons pre t).resolve_right ?_ rest
  rintro ⟨_, line, hm⟩
  have hm' : ⟨.label t.text, line⟩ ∈ s.pieces := by
    rw [Source.pieces, h]
    exact hm post
  have hr := st.isReserved_of_label hm'
  rw [SymbolTable.isReserved_of_ofMnemonic? ht] at hr
  simp at hr

/-- There is no label without a name. -/
theorem namelessLabel_not_mem (line : Nat) : ⟨.namelessLabel, line⟩ ∉ s.pieces := by
  intro h
  obtain ⟨pre, post, hp⟩ := List.append_of_mem h
  have hf := st.blockFault?_eq_none
  rw [Block.fault?, hp] at hf
  obtain ⟨_, _, hf⟩ := Block.firstFault?_of_append hf
  cases hf

/-- An opcode of the body stands between the pieces of the tokens before and after it,
    and so it does if tokens are cut off after it. -/
theorem ofTokens_of_operation {i : Nat} {t : Token} {op : Opcode} (hi : s.body[i]? = some t)
    (ho : Opcode.ofMnemonic? t.text = some op) (hl : op ≠ .label) (n : Nat) :
    Piece.ofTokens (s.body.take (i + 1 + n)) = Piece.ofTokens (s.body.take i) ++
      ⟨.operation op, t.line⟩ :: Piece.ofTokens ((s.body.drop (i + 1)).take n) := by
  have hlt := (List.getElem?_eq_some_iff.1 hi).1
  have hn : ¬t.isLabel = true := by
    rw [Token.isLabel, ho]
    simpa using hl
  have ht : s.body.take (i + 1 + n) = s.body.take i ++ t :: (s.body.drop (i + 1)).take n := by
    rw [List.take_add, List.take_add_one, hi, List.append_assoc]
    rfl
  rw [ht, st.pieces_of_ofMnemonic? (eq_take_cons_drop hi) ho, Piece.ofTokens_cons hn,
    Piece.ofToken_operation ho]

theorem pieces_of_operation {i : Nat} {t : Token} {op : Opcode} (hi : s.body[i]? = some t)
    (ho : Opcode.ofMnemonic? t.text = some op) (hl : op ≠ .label) :
    s.pieces = Piece.ofTokens (s.body.take i) ++
      ⟨.operation op, t.line⟩ :: Piece.ofTokens (s.body.drop (i + 1)) := by
  have h := st.ofTokens_of_operation hi ho hl s.body.length
  have hn : (s.body.drop (i + 1)).length ≤ s.body.length := by
    rw [List.length_drop]
    exact Nat.sub_le _ _
  rwa [List.take_of_length_le hn, List.take_of_length_le (Nat.le_add_left _ _)] at h

/-- A label in the body of a program is a piece together with the token after it. -/
theorem pieces_of_isLabel {i : Nat} {d name : Token} (hd : s.body[i]? = some d)
    (hl : d.isLabel = true) (hn : s.body[i + 1]? = some name) :
    s.pieces = Piece.ofTokens (s.body.take i) ++
      ⟨.label name.text, d.line⟩ :: Piece.ofTokens (s.body.drop (i + 2)) := by
  have hb : s.body = s.body.take i ++ d :: name :: s.body.drop (i + 2) := by
    have hn' : (s.body.drop (i + 1))[0]? = some name := by rwa [List.getElem?_drop, Nat.add_zero]
    conv_lhs => rw [eq_take_cons_drop hd, eq_take_cons_drop hn']
    rw [List.drop_drop]
    rfl
  have hp := st.pieces_of_ofMnemonic? hb (of_decide_eq_true hl) (name :: s.body.drop (i + 2))
  rw [← hb] at hp
  by_cases hc : name.canBeName = true
  · rwa [Piece.ofTokens_label hl hc] at hp
  · rw [Piece.ofTokens_namelessLabel hl hc] at hp
    refine absurd ?_ (st.namelessLabel_not_mem d.line)
    rw [Source.pieces, hp]
    exact List.mem_append_right _ List.mem_cons_self

/-- The words before a piece of a program are no more than the program has. -/
theorem widthOf_le_size {pre post : List Piece} (h : s.pieces = pre ++ post) :
    Block.widthOf pre ≤ p.size := by
  rw [st.size_eq, h, Block.widthOf_append, Nat.add_assoc]
  exact Nat.le_add_right _ _

/-- The word of a block is the number of words after it, up to the brace that closes it. -/
theorem exists_word_of_blockOpen {i : Nat} {t : Token} (hi : s.body[i]? = some t)
    (ht : t.text = Token.blockOpen) :
    ∃ close w, Token.closing? 0 (i + 1) (s.body.drop (i + 1)) = some close ∧
      p.words[emitted (s.body.take i)]? = some w ∧
      emitted (s.body.take i) + 1 + w.toInt = emitted (s.body.take close) := by
  have hf := st.blockFault?_eq_none
  have hc := Block.closing?_of_blockOpen hf hi ht
  have hclose := Layout.emitted_take_close hf hi ht hc
  obtain ⟨_, line, rest, hp⟩ := Block.ofTokens_take_close hf hi ht hc
  have hsize := st.widthOf_le_size hp
  have hslot := (Layout.slot_of_blockOpen hi ht).1
  rw [st.layout_eq] at hslot
  refine ⟨_, _, hc, st.getElem?_words_of_layout hslot, ?_⟩
  rw [← Layout.emitted_eq_widthOf] at hsize
  have hle := Nat.le_trans hsize st.size_le
  rw [toInt_ofNat_of_le_cap (by omega), hclose]
  push_cast
  rfl

end Source.Stages

/-! ## The counts agree -/

/-- A layout of at most 4096 tokens without faults in their braces and labels has
    no other fault than an instruction with too many operands. -/
theorem Layout.place_eq_ok_or {tokens : List Token} {blocks : List Block}
    (hl : tokens.length ≤ Source.tokenCap) (hb : Block.find (Piece.ofTokens tokens) = .ok blocks) :
    (∃ l, place (Piece.ofTokens tokens) blocks = .ok l) ∨
      ∃ line, place (Piece.ofTokens tokens) blocks = .error ⟨.tooManyOperands, line⟩ := by
  obtain ⟨hf, rfl⟩ := Block.find_eq_ok_iff.1 hb
  have hr : Block.tokenCount (Piece.ofTokens tokens) ≤ cap := by
    rwa [Piece.tokenCount_ofTokens]
  have ho : openings (Piece.ofTokens tokens) ≤ (Block.ofPieces 0 (Piece.ofTokens tokens)).length :=
    Nat.le_of_eq (Block.length_ofPieces _ _).symm
  have hc : fault? (Piece.ofTokens tokens)
        (Block.ofPieces 0 (Piece.ofTokens tokens)).length = none ∨
      ∃ line, fault? (Piece.ofTokens tokens) (Block.ofPieces 0 (Piece.ofTokens tokens)).length =
        some ⟨.tooManyOperands, line⟩ := firstFault?_cases hf ho hr
  rcases hc with h | ⟨line, h⟩
  · exact .inl ⟨_, place_eq_ok_iff.2 ⟨h, rfl⟩⟩
  · exact .inr ⟨line, place_eq_error_iff.2 h⟩

/-- The counts of words agree. In a layout, the blocks have their numbers of words in
    the order of the braces that open them, and as many slots follow up to the braces
    that close them. In a program, a label is defined to be the number of words that are
    written before it, and the word of a block is the number of words that are written
    after it and up to the brace that closes the block. -/
theorem word_counts_agree :
    (∀ (tokens : List Token) (blocks : List Block), tokens.length ≤ Source.tokenCap →
      Block.find (Piece.ofTokens tokens) = .ok blocks →
      ((∃ l, Layout.place (Piece.ofTokens tokens) blocks = .ok l) ∨
        ∃ line, Layout.place (Piece.ofTokens tokens) blocks = .error ⟨.tooManyOperands, line⟩) ∧
      ∀ l, Layout.place (Piece.ofTokens tokens) blocks = .ok l →
        skips l.slots = tokens.countP (fun t => t.text = Token.blockOpen) ∧
        ∀ i t, tokens[i]? = some t → t.text = Token.blockOpen →
          ∃ b slot l', blocks[(tokens.take i).countP fun t => t.text = Token.blockOpen]? = some b ∧
            b.opening = i ∧ Token.closing? 0 (i + 1) (tokens.drop (i + 1)) = some b.closing ∧
            l.slots[slot]? = some (.skip b.width, t.line) ∧
            skips (l.slots.take slot) = (tokens.take i).countP (fun t => t.text = Token.blockOpen) ∧
            Layout.place (Piece.ofTokens (tokens.take b.closing)) blocks = .ok l' ∧
            l'.slots.length = slot + 1 + b.width) ∧
    ∀ (s : Source) (p : Program), s.assemble = .ok p → ∃ st : s.Stages p,
      (∀ i d name, s.body[i]? = some d → d.isLabel = true → s.body[i + 1]? = some name →
        ∃ before after t₁ t₂ t₃ w, st.layout = before ++ .label name.text d.line :: after ∧
          Layout.bindLabels 0 st.aliases before = .ok t₁ ∧
          t₁.define name.text (.number w) = .ok t₂ ∧
          Layout.bindLabels (emitted (s.body.take i)) t₂ after = .ok st.labels ∧
          w.toInt = emitted (s.body.take i) ∧ emitted (s.body.take i) ≤ p.size ∧
          st.labels.write Program.cap before.slots =
            .ok (p.cells.take (emitted (s.body.take i)), t₃)) ∧
      ∀ i t, s.body[i]? = some t → t.text = Token.blockOpen →
        ∃ close w, Token.closing? 0 (i + 1) (s.body.drop (i + 1)) = some close ∧
          p.words[emitted (s.body.take i)]? = some w ∧
          emitted (s.body.take i) + 1 + w.toInt = emitted (s.body.take close) := by
  refine ⟨fun tokens blocks hcap hb => ⟨Layout.place_eq_ok_or hcap hb, fun l hl => ?_⟩,
    fun s p h => ?_⟩
  · obtain ⟨hf, rfl⟩ := Block.find_eq_ok_iff.1 hb
    obtain ⟨_, rfl⟩ := Layout.place_eq_ok_iff.1 hl
    refine ⟨by rw [Layout.skips_slots_ofPieces, Piece.countP_blockOpen], fun i t hi ht => ?_⟩
    have hc := Block.closing?_of_blockOpen hf hi ht
    obtain ⟨l', hl', hlen⟩ := Layout.place_take_close hf hl hi ht hc
    obtain ⟨hslot, hskips⟩ := Layout.slot_of_blockOpen hi ht
    have hblock := Block.getElem?_ofPieces 0 t.line (Piece.ofTokens (tokens.take i))
      (Piece.ofTokens (tokens.drop (i + 1)))
    rw [← Piece.ofTokens_of_blockOpen hi ht, Piece.tokenCount_ofTokens_take hi, Nat.zero_add,
      ← Piece.countP_blockOpen] at hblock
    refine ⟨_, _, l', hblock, rfl, hc, hslot, hskips, hl', ?_⟩
    rw [hlen, Layout.emitted_take_close hf hi ht hc]
    rfl
  · obtain ⟨st⟩ := Source.nonempty_stages_iff.1 h
    refine ⟨st, fun i d name hd hl hn => ?_, fun i t hi ht => ?_⟩
    · have hp := st.pieces_of_isLabel hd hl hn
      obtain ⟨before, after, t₁, t₂, hs, hlen, h₁, h₂, h₃⟩ := st.exists_bindLabels hp
      have hsize := st.widthOf_le_size hp
      have hw := st.write_eq
      rw [st.slots_finished, hs, Layout.slots_append, List.append_assoc] at hw
      obtain ⟨t₃, ht₃⟩ := SymbolTable.write_take hw
      rw [← Layout.emitted_eq_widthOf] at hlen h₂ h₃ hsize
      exact ⟨before, after, t₁, t₂, t₃, _, hs, h₁, h₂, h₃,
        toInt_ofNat_of_le_cap (Nat.le_trans hsize st.size_le), hsize, by rw [← hlen]; exact ht₃⟩
    · exact st.exists_word_of_blockOpen hi ht

theorem word_counts_agree_nested :
    Source.nested.body.length ≤ Source.tokenCap ∧
      Block.find (Piece.ofTokens Source.nested.body) = .ok [⟨1, 9, 4⟩, ⟨7, 8, 0⟩] ∧
      ((∃ l, Layout.place (Piece.ofTokens Source.nested.body) [⟨1, 9, 4⟩, ⟨7, 8, 0⟩] = .ok l) ∨
        ∃ line, Layout.place (Piece.ofTokens Source.nested.body) [⟨1, 9, 4⟩, ⟨7, 8, 0⟩] =
          .error ⟨.tooManyOperands, line⟩) ∧
      Source.nested.assemble = .ok Program.nested ∧
      ∃ close w, Token.closing? 0 2 (Source.nested.body.drop 2) = some close ∧
        Program.nested.words[emitted (Source.nested.body.take 1)]? = some w ∧
        emitted (Source.nested.body.take 1) + 1 + w.toInt =
          emitted (Source.nested.body.take close) := by
  have hfind : Block.find (Piece.ofTokens Source.nested.body) = .ok [⟨1, 9, 4⟩, ⟨7, 8, 0⟩] := by
    decide +kernel
  refine ⟨by decide, hfind, (word_counts_agree.1 _ _ (by decide) hfind).1, Source.assemble_nested,
    ?_⟩
  obtain ⟨_, _, hb⟩ := word_counts_agree.2 _ _ Source.assemble_nested
  exact hb 1 ⟨Token.blockOpen, 1⟩ rfl rfl

end GridBots
