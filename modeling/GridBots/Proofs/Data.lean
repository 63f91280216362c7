import GridBots.Proofs.Literals
import GridBots.Proofs.Reading

/-!
# Data

Any words can be written in a text one after the other, with nothing but blanks and the ends of
lines between them. A word may be written as a number in base ten, or as the pattern of its bits in
base sixteen, and may be marked as an immediate operand (`Word.IsWritten`). The text becomes a
program that has these words, with the instruction at the end, which is a zero, and no variables
(`data_as_written`).

There is no instruction that words written so belong to. That is no fault: they are written by
themselves (`Source.exists_assemble_of_data`).
-/

namespace GridBots

/-! ## Words as texts -/

/-- Every natural number has digits that write it. -/
theorem Digits.exists_toDigits (base : Nat) (hb : 1 < base) (hb' : base ≤ 16) (n : Nat) :
    ∃ ds : Digits base, ds.chars = Nat.toDigits base n ∧ ds.value = n := by
  have hdigits : ∀ d < 16, (Nat.digitChar d, d) ∈ digitTable := by decide
  induction n using Nat.strongRecOn with
  | ind n ih =>
  by_cases hn : n < base
  · refine ⟨⟨[(Nat.digitChar n, n)], List.cons_ne_nil _ _, fun d hd => ?_⟩, ?_, ?_⟩
    · rw [List.mem_singleton.1 hd]
      exact ⟨hdigits n (Nat.lt_of_lt_of_le hn hb'), hn⟩
    · rw [Nat.toDigits_of_lt_base hn]
      rfl
    · exact Nat.ofDigits_singleton
  · -- The last digit is the remainder, and those before it write the quotient.
    have hpos : 0 < n / base := Nat.div_pos (Nat.le_of_not_lt hn) (Nat.zero_lt_of_lt hb)
    have hlt : n % base < base := Nat.mod_lt n (Nat.zero_lt_of_lt hb)
    obtain ⟨ds, hchars, hvalue⟩ := ih (n / base) (Nat.div_lt_self (by omega) hb)
    refine ⟨⟨ds.row ++ [(Nat.digitChar (n % base), n % base)], List.append_ne_nil_of_left_ne_nil
      ds.row_ne_nil _, fun d hd => ?_⟩, ?_, ?_⟩
    · rcases List.mem_append.1 hd with hd | hd
      · exact ds.mem d hd
      · rw [List.mem_singleton.1 hd]
        exact ⟨hdigits _ (Nat.lt_of_lt_of_le hlt hb'), hlt⟩
    · rw [chars, List.map_append, ← chars, hchars, List.map_singleton,
        ← Nat.toDigits_of_lt_base hlt, Nat.toDigits_append_toDigits hb hpos hlt, Nat.div_add_mod]
    · rw [value, List.map_append, List.reverse_append, List.map_singleton, List.reverse_singleton,
        List.singleton_append, Nat.ofDigits_cons, ← value, hvalue, Nat.add_comm, Nat.div_add_mod]

namespace Word

/-- A text is one of those that a word can be written as: a literal, which may be marked as
    immediate. -/
inductive IsWritten (w : Word) : String → Prop
  | plain {l : Literal} : l.IsWord w → IsWritten w l.text
  | marked {l : Literal} : l.IsWord w → IsWritten w ("#" ++ l.text)

/-- A literal may be marked. -/
theorem IsWritten.of_mark {w : Word} {l : Literal} {mark : String} (hmark : mark ∈ ["", "#"])
    (hl : l.IsWord w) : w.IsWritten (mark ++ l.text) := by
  rcases List.mem_cons.1 hmark with rfl | hmark
  · rw [String.empty_append]
    exact .plain hl
  · rw [List.mem_singleton.1 hmark]
    exact .marked hl

/-- A word can be written as the number that it is. -/
theorem exists_literal_toString (w : Word) :
    ∃ l : Literal, l.IsWord w ∧ l.text = toString w.toInt := by
  rw [Int.toString_eq_repr, Int.repr_eq_if]
  by_cases hw : 0 ≤ w.toInt
  · obtain ⟨ds, hchars, hvalue⟩ :=
      Digits.exists_toDigits 10 (by decide) (by decide) w.toInt.toNat
    refine ⟨.decimal ds, ?_, ?_⟩
    · change w.toInt = ds.value
      omega
    · rw [if_pos hw, Literal.text, hchars, Nat.repr_eq_ofList_toDigits]
  · obtain ⟨ds, hchars, hvalue⟩ :=
      Digits.exists_toDigits 10 (by decide) (by decide) (-w.toInt).toNat
    refine ⟨.negative ds, ?_, ?_⟩
    · change w.toInt = -(ds.value : Int)
      omega
    · rw [if_neg hw, Literal.text, hchars, Nat.repr_eq_ofList_toDigits]
      exact @String.ofList_append ['-'] _

/-- A word can be written as the pattern of its bits. -/
theorem exists_literal_toDigits (w : Word) :
    ∃ l : Literal, l.IsWord w ∧ l.text = "0x" ++ String.ofList (Nat.toDigits 16 w.bits) := by
  obtain ⟨ds, hchars, hvalue⟩ :=
    Digits.exists_toDigits 16 (by decide) (Nat.le_refl _) w.bits
  refine ⟨.pattern ds, hvalue.symm, ?_⟩
  rw [Literal.text, hchars]
  exact @String.ofList_append ['0', 'x'] _

end Word

/-! ## Written words are operands -/

namespace Literal

variable {l : Literal} {w : Word}

theorem parse?_of_isWord (h : l.IsWord w) : Numeral.parse? l.text = some w := by
  cases l with
  | decimal ds =>
    rw [parse?_decimal]
    exact Word.toInt_ofInt?.2 h
  | negative ds =>
    rw [parse?_negative]
    exact Word.toInt_ofInt?.2 h
  | pattern ds =>
    have hbits : w.bits = ds.value := h
    rw [parse?_pattern, ← hbits, if_pos w.bits_lt, Word.ofBits_bits]

theorem mem_text {c : Char} (h : c ∈ l.text.toList) :
    c = '-' ∨ c = 'x' ∨ ∃ d ∈ digitTable, d.1 = c := by
  have hdigits : ∀ {base} {ds : Digits base}, c ∈ ds.chars → ∃ d ∈ digitTable, d.1 = c := by
    intro base ds hc
    obtain ⟨d, hd, heq⟩ := List.mem_map.1 hc
    exact ⟨d, (ds.mem d hd).1, heq⟩
  cases l with
  | decimal ds =>
    rw [text, String.toList_ofList] at h
    exact .inr (.inr (hdigits h))
  | negative ds =>
    rw [text, String.toList_ofList, List.mem_cons] at h
    exact h.imp_right fun h => .inr (hdigits h)
  | pattern ds =>
    rw [text, String.toList_ofList, List.mem_cons, List.mem_cons] at h
    rcases h with rfl | h | h
    · exact .inr (.inr ⟨('0', 0), by decide, rfl⟩)
    · exact .inr (.inl h)
    · exact .inr (.inr (hdigits h))

end Literal

namespace Word.IsWritten

variable {w : Word} {text : String} {t : Token}

theorem exists_head? (h : w.IsWritten text) :
    ∃ c ∈ "#-0123456789".toList, text.toList.head? = some c := by
  cases h with
  | @plain l _ =>
    obtain ⟨c, hc, hhead⟩ := l.exists_head?_text
    exact ⟨c, List.mem_cons_of_mem _ hc, hhead⟩
  | marked _ => exact ⟨'#', by decide, by rw [String.toList_append]; rfl⟩

/-- No character of a written word ends it, or begins a comment, or is reserved. -/
theorem of_mem {c : Char} (h : w.IsWritten text) (hc : c ∈ text.toList) :
    Source.isSeparator c = false ∧ c ≠ Token.reservedDelimiter ∧ c ≠ Source.commentMarker := by
  have hliteral : ∀ {l : Literal}, c ∈ l.text.toList → Source.isSeparator c = false ∧
      c ≠ Token.reservedDelimiter ∧ c ≠ Source.commentMarker := by
    have hdigits : ∀ d ∈ digitTable, Source.isSeparator d.1 = false ∧
      d.1 ≠ Token.reservedDelimiter ∧ d.1 ≠ Source.commentMarker := by decide
    intro l hc
    rcases l.mem_text hc with rfl | rfl | ⟨d, hd, rfl⟩
    · decide
    · decide
    · exact hdigits d hd
  cases h with
  | plain _ => exact hliteral hc
  | marked _ =>
    rw [String.toList_append] at hc
    rcases List.mem_append.1 hc with hc | hc
    · rw [List.mem_singleton.1 hc]
      decide
    · exact hliteral hc

/-- A word that is written is neither an opcode nor a brace, and does not begin an alias. -/
theorem not_reserved (h : w.IsWritten text) :
    Opcode.ofMnemonic? text = none ∧ Token.isAliasText text = false ∧
      text ≠ Token.blockOpen ∧ text ≠ Token.blockClose := by
  have hnames : "#-0123456789".toList.all (fun c =>
      (∀ e ∈ Opcode.spellings, e.1.toList.head? ≠ some c.toUpper) ∧
        Token.aliasDirective.toList.head? ≠ some c.toUpper ∧
        Token.blockOpen.toList.head? ≠ some c ∧
        Token.blockClose.toList.head? ≠ some c) = true := by
    decide
  obtain ⟨c, hc, hhead⟩ := h.exists_head?
  obtain ⟨hs, halias, hopen, hclose⟩ := of_decide_eq_true (List.all_eq_true.1 hnames c hc)
  exact ⟨Piece.ofMnemonic?_eq_none_of_head? hhead hs,
    decide_eq_false fun heq => halias (heq ▸ Text.head?_upperCase hhead),
    fun heq => hopen (heq ▸ hhead), fun heq => hclose (heq ▸ hhead)⟩

theorem parse?_operandText (h : w.IsWritten t.text) : Numeral.parse? t.operandText = some w := by
  rw [Token.operandText, Token.isImmediate]
  generalize t.text = text at h
  cases h with
  | @plain l hl =>
    have hmark : '#' ∉ "-0123456789".toList := by decide
    obtain ⟨c, hc, hhead⟩ := l.exists_head?_text
    rw [if_neg, Literal.parse?_of_isWord hl]
    rw [decide_eq_true_eq, hhead]
    rintro heq
    cases heq
    exact hmark hc
  | @marked l hl =>
    have hcons : ("#" ++ l.text).toList = '#' :: l.text.toList := String.toList_append
    rw [hcons, if_pos (by rfl), List.tail_cons, String.ofList_toList, Literal.parse?_of_isWord hl]

end Word.IsWritten

/-! ## Operands without instructions -/

section Operands

variable {ws : List Word} {tokens : List Token}

/-- The pieces that tokens are, if all of them are operands. -/
def Piece.operands (tokens : List Token) : List Piece :=
  tokens.map fun t => ⟨.operand t.operandText t.isImmediate, t.line⟩

theorem Piece.ofTokens_eq_operands (h : ∀ t ∈ tokens, Opcode.ofMnemonic? t.text = none ∧
    t.text ≠ Token.blockOpen ∧ t.text ≠ Token.blockClose) : ofTokens tokens = operands tokens := by
  rw [ofTokens_eq_map fun t ht => not_isLabel_of_ofMnemonic?_eq_none (h t ht).1]
  exact List.map_congr_left fun t ht => ofToken_operand (h t ht).1 (h t ht).2.1 (h t ht).2.2

/-- Operands open no blocks. -/
theorem Block.find_operands (tokens : List Token) : find (Piece.operands tokens) = .ok [] := by
  have hfault : ∀ tokens : List Token, firstFault? 0 [] (Piece.operands tokens) = none := by
    intro tokens
    induction tokens with
    | nil => rfl
    | cons t tokens ih => exact ih
  have hblocks : ∀ index, ofPieces index (Piece.operands tokens) = [] := by
    induction tokens with
    | nil => exact fun _ => rfl
    | cons t tokens ih => exact fun index => (if_neg (by simp)).trans (ih _)
  exact find_eq_ok_iff.2 ⟨hfault tokens, hblocks 0⟩

namespace Layout

theorem place_operands (h : tokens.length ≤ cap) :
    place (Piece.operands tokens) [] = .ok (ofPieces [] (Piece.operands tokens)) := by
  have hfault : ∀ {room} {tokens : List Token}, tokens.length ≤ room →
      firstFault? 0 room none (Piece.operands tokens) = none := by
    intro room tokens h
    induction tokens generalizing room with
    | nil => rfl
    | cons t tokens ih =>
      rw [List.length_cons] at h
      exact (if_neg (by omega)).trans (ih (Nat.le_sub_one_of_lt h))
  exact place_eq_ok_iff.2 ⟨hfault h, rfl⟩

theorem length_operands (tokens : List Token) :
    (ofPieces [] (Piece.operands tokens)).length = tokens.length := by
  induction tokens with
  | nil => rfl
  | cons t tokens ih => exact congrArg Nat.succ ih

theorem slots_operands (tokens : List Token) :
    (ofPieces [] (Piece.operands tokens)).slots =
      tokens.map fun t => (.operand t.operandText, t.line) := by
  induction tokens with
  | nil => rfl
  | cons t tokens ih => exact congrArg _ ih

/-- Operands define no names. -/
theorem bindLabels_operands (address : Nat) (t : SymbolTable) (tokens : List Token) :
    bindLabels address t (ofPieces [] (Piece.operands tokens)) = .ok t := by
  induction tokens generalizing address with
  | nil => rfl
  | cons _ tokens ih => exact ih (address + 1)

/-- After operands without an instruction, there is always one added that ends the tick. -/
theorem exists_terminate_operands (h : tokens.length < cap) (lineCount : Nat) :
    ∃ finished line, (ofPieces [] (Piece.operands tokens)).terminate lineCount = .ok finished ∧
      finished.slots = (tokens.map fun t => (.operand t.operandText, t.line)) ++
        [(.instruction (Header.new .halt), line)] := by
  have hends : ¬(ofPieces [] (Piece.operands tokens)).isTerminated = true := by
    rw [isTerminated, slots_operands, List.getLast?_map, Option.any_map]
    cases tokens.getLast? <;> exact Bool.false_ne_true
  obtain ⟨finished, hfinished⟩ :=
    exists_terminate (fun _ => (length_operands tokens).symm ▸ h) lineCount
  have hslots := slots_terminate hfinished
  rw [if_neg hends, slots_operands] at hslots
  exact ⟨finished, _, hfinished, hslots⟩

end Layout

/-- Written words are written one after the other, with the instruction at the end. -/
theorem SymbolTable.exists_write_of_isWritten (t : SymbolTable) (line : Nat) {room : Nat}
    (h : List.Forall₂ (fun w (d : Token) => w.IsWritten d.text) ws tokens)
    (hroom : ws.length < room) :
    ∃ cells, t.write room ((tokens.map fun d => (.operand d.operandText, d.line)) ++
        [(.instruction (Header.new .halt), line)]) = .ok (cells, t) ∧
      cells.map Cell.word = ws ++ [0] := by
  induction h generalizing room with
  | nil =>
    have hne : room ≠ 0 := Nat.ne_of_gt hroom
    exact ⟨_, write_cons_eq_ok.2 ⟨_, _, _, rfl, hne, rfl, rfl⟩, rfl⟩
  | @cons w d ws tokens hd _ ih =>
    rw [List.length_cons] at hroom
    obtain ⟨cells, hwrite, hcells⟩ := ih (Nat.lt_sub_of_add_lt hroom)
    have hword : t.word (.operand d.operandText) = .ok (w, t) := by
      rw [word, operand, hd.parse?_operandText]
    refine ⟨_, write_cons_eq_ok.2 ⟨_, _, _, hword, by omega, hwrite, rfl⟩, ?_⟩
    rw [List.map_cons, hcells, List.cons_append]

/-- No aliases are defined if there are none. -/
theorem SymbolTable.defineAliases_of_not_isAlias (t : SymbolTable)
    (h : ∀ d ∈ tokens, d.isAlias = false) : t.defineAliases tokens = .ok (t, tokens) := by
  cases tokens with
  | nil => rfl
  | cons d tokens =>
    rw [defineAliases.eq_def]
    simp only [h d List.mem_cons_self]
    rfl

theorem Word.exists_isWritten {texts : List String} (h : List.Forall₂ IsWritten ws texts) :
    ∀ text ∈ texts, ∃ w, IsWritten w text := by
  induction h with
  | nil => exact fun _ h => absurd h List.not_mem_nil
  | cons hw _ ih => exact List.forall_mem_cons.2 ⟨⟨_, hw⟩, ih⟩

/-- Tokens that are written words become a program that has these words. -/
theorem Source.exists_assemble_of_data {s : Source}
    (h : List.Forall₂ Word.IsWritten ws (s.tokens.toList.map Token.text))
    (hlength : ws.length ≤ 1999) :
    ∃ p, s.assemble = .ok p ∧ p.words = ws ++ [0] ∧ p.variableCount = 0 := by
  have hreserved : ∀ d ∈ s.tokens.toList, Opcode.ofMnemonic? d.text = none ∧
      Token.isAliasText d.text = false ∧ d.text ≠ Token.blockOpen ∧ d.text ≠ Token.blockClose := by
    intro d hd
    obtain ⟨w, hw⟩ := Word.exists_isWritten h d.text (List.mem_map_of_mem hd)
    exact hw.not_reserved
  have halias : ∀ d ∈ s.tokens.toList, d.isAlias = false := fun d hd => (hreserved d hd).2.1
  have hpieces : Piece.ofTokens s.tokens.toList = Piece.operands s.tokens.toList :=
    Piece.ofTokens_eq_operands fun d hd => ⟨(hreserved d hd).1, (hreserved d hd).2.2⟩
  have hcap : s.tokens.toList.length < Layout.cap := by
    rw [← List.length_map Token.text, ← h.length_eq, Layout.cap]
    omega
  have hstray : s.tokens.toList.find? Token.isAlias = none :=
    List.find?_eq_none.2 fun d hd => by rw [halias d hd]; exact Bool.false_ne_true
  obtain ⟨finished, line, hfinished, hslots⟩ := Layout.exists_terminate_operands hcap s.lineCount
  obtain ⟨cells, hwrite, hcells⟩ := SymbolTable.exists_write_of_isWritten .empty line
    (List.forall₂_map_right_iff.1 h) (Nat.lt_succ_of_le hlength)
  refine ⟨⟨cells, 0⟩, ?_, hcells, rfl⟩
  rw [assemble, SymbolTable.defineAliases_of_not_isAlias _ halias]
  refine except_bind_eq_ok.2 ⟨_, rfl, ?_⟩
  dsimp only
  rw [hstray, hpieces, Block.find_operands]
  refine except_bind_eq_ok.2 ⟨_, rfl, except_bind_eq_ok.2 ⟨_, Layout.place_operands
    (Nat.le_of_lt hcap), except_bind_eq_ok.2 ⟨_, Layout.bindLabels_operands _ _ _,
      except_bind_eq_ok.2 ⟨_, hfinished, ?_⟩⟩⟩⟩
  rw [Layout.write, hslots]
  exact except_bind_eq_ok.2 ⟨_, hwrite, rfl⟩

end Operands

/-! ## Texts of data -/

namespace Source

/-- Texts stand one after the other, with separators between them. -/
inductive Joined : List String → List Char → Prop
  | nil : Joined [] []
  | last {text : String} : Joined [text] text.toList
  | cons {text : String} {texts : List String} {gap cs : List Char} : gap ≠ [] →
      (∀ c ∈ gap, isSeparator c = true) → Joined texts cs →
      Joined (text :: texts) (text.toList ++ gap ++ cs)

variable {texts : List String} {cs : List Char}

theorem Joined.mem {c : Char} (h : Joined texts cs) (hc : c ∈ cs) :
    isSeparator c = true ∨ ∃ text ∈ texts, c ∈ text.toList := by
  induction h with
  | nil => cases hc
  | last => exact .inr ⟨_, List.mem_singleton_self _, hc⟩
  | cons _ hgap _ ih =>
    rcases List.mem_append.1 hc with hc | hc
    · rcases List.mem_append.1 hc with hc | hc
      · exact .inr ⟨_, List.mem_cons_self, hc⟩
      · exact .inl (hgap c hc)
    · exact (ih hc).imp_right fun ⟨text, ht, hc⟩ => ⟨text, List.mem_cons_of_mem _ ht, hc⟩

theorem separatedWords_gap_append {gap : List Char} (h : ∀ c ∈ gap, isSeparator c = true) :
    separatedWords (gap ++ cs) = separatedWords cs := by
  induction gap with
  | nil => rfl
  | cons c gap ih =>
    obtain ⟨hc, hgap⟩ := List.forall_mem_cons.1 h
    exact (separatedWords_append_cons hc [] (gap ++ cs)).trans (ih hgap)

/-- Texts that are joined are found again. -/
theorem Joined.separatedWords_eq (h : Joined texts cs)
    (htexts : ∀ text ∈ texts, text.toList ≠ [] ∧ ∀ c ∈ text.toList, isSeparator c = false) :
    separatedWords cs = texts := by
  have hword : ∀ {text : String},
      (text.toList ≠ [] ∧ ∀ c ∈ text.toList, isSeparator c = false) →
        separatedWords text.toList = [text] := by
    rintro text ⟨hne, hchars⟩
    rw [separatedWords_of_isSeparator hchars, if_neg (mt List.isEmpty_iff.1 hne),
      String.ofList_toList]
  induction h with
  | nil => rfl
  | last => exact hword (htexts _ (List.mem_singleton_self _))
  | @cons text texts gap cs hne hgap _ ih =>
    obtain ⟨htext, hlater⟩ := List.forall_mem_cons.1 htexts
    obtain ⟨c, gap, rfl⟩ := List.exists_cons_of_ne_nil hne
    obtain ⟨hc, hgap⟩ := List.forall_mem_cons.1 hgap
    rw [List.append_assoc, List.cons_append, separatedWords_append_cons hc, hword htext,
      separatedWords_gap_append hgap, ih hlater]
    rfl

/-- What is in no comment is read as it stands. -/
theorem withoutComments_of_not_mem (h : commentMarker ∉ cs) : withoutComments false cs = cs := by
  induction cs with
  | nil => rfl
  | cons c cs ih =>
    obtain ⟨hc, hcs⟩ := not_or.1 (mt List.mem_cons.2 h)
    rw [withoutComments, if_neg (Ne.symm hc), ih hcs]

/-- A text that joins words has these words. -/
theorem Joined.textWords_eq {text : String} (h : Joined texts text.toList)
    (htexts : ∀ word ∈ texts, word.toList ≠ [] ∧
      ∀ c ∈ word.toList, isSeparator c = false ∧ c ≠ commentMarker) : textWords text = texts := by
  have hcomment : commentMarker ∉ text.toList := by
    intro hmem
    rcases h.mem hmem with hseparator | ⟨word, hword, hc⟩
    · cases hseparator
    · exact ((htexts word hword).2 _ hc).2 rfl
  rw [Source.textWords_eq, withoutComments_of_not_mem hcomment]
  exact h.separatedWords_eq fun word hword =>
    ⟨(htexts word hword).1, fun c hc => ((htexts word hword).2 c hc).1⟩

end Source

/-- Words that are written one after the other, as decimal numbers or as patterns of bits, become a
    program that has them, a zero after them, and no variables. -/
theorem data_as_written :
    (∀ w : Word, ∀ mark ∈ ["", "#"], w.IsWritten (mark ++ toString w.toInt) ∧
      w.IsWritten (mark ++ ("0x" ++ String.ofList (Nat.toDigits 16 w.bits)))) ∧
    ∀ (ws : List Word) (texts : List String) (text : String), ws.length ≤ 1999 →
      List.Forall₂ Word.IsWritten ws texts → Source.Joined texts text.toList →
      ∃ p, assemble text = .ok p ∧ p.words = ws ++ [0] ∧ p.variableCount = 0 := by
  refine ⟨fun w mark hmark => ?_, fun ws texts text hlength hwritten hjoined => ?_⟩
  · obtain ⟨l, hl, htext⟩ := w.exists_literal_toString
    obtain ⟨l', hl', htext'⟩ := w.exists_literal_toDigits
    rw [← htext, ← htext']
    exact ⟨.of_mark hmark hl, .of_mark hmark hl'⟩
  · have hwords : Source.textWords text = texts := by
      refine hjoined.textWords_eq fun word hword => ?_
      obtain ⟨w, hw⟩ := Word.exists_isWritten hwritten word hword
      obtain ⟨c, _, hhead⟩ := hw.exists_head?
      exact ⟨List.ne_nil_of_mem (List.mem_of_mem_head? hhead),
        fun c hc => ⟨(hw.of_mem hc).1, (hw.of_mem hc).2.2⟩⟩
    have hfault : Source.wordsFault? 0 (Source.textWords text) = none := by
      rw [hwords]
      refine (Source.wordsFault?_eq_none_iff (Nat.zero_le _)).2 ⟨fun word hword hmem => ?_, ?_⟩
      · obtain ⟨w, hw⟩ := Word.exists_isWritten hwritten word hword
        exact (hw.of_mem hmem).2.1 rfl
      · rw [← hwritten.length_eq, Nat.zero_add]
        exact Nat.le_trans hlength (by decide)
    rw [← hwords, ← Source.texts_scan] at hwritten
    obtain ⟨p, hp, hprogram⟩ := Source.exists_assemble_of_data hwritten hlength
    exact ⟨p, except_bind_eq_ok.2 ⟨_, Source.ofText_eq_ok_iff.2 ⟨hfault, rfl⟩, hp⟩, hprogram⟩

/-- The least word as a number, and the word -1 as a pattern of bits. -/
def Source.dataText : String :=
  "-2147483648\t\r\n#0xFFFFFFFF"

theorem data_as_written_least :
    ([-2147483648, -1] : List Word).length ≤ 1999 ∧
      List.Forall₂ Word.IsWritten [-2147483648, -1] ["-2147483648", "#0xFFFFFFFF"] ∧
      Source.Joined ["-2147483648", "#0xFFFFFFFF"] Source.dataText.toList ∧
      ∃ p, assemble Source.dataText = .ok p ∧ p.words = [-2147483648, -1, 0] ∧
        p.variableCount = 0 := by
  have hleast : Word.IsWritten (-2147483648) "-2147483648" :=
    (data_as_written.1 (-2147483648) "" (by decide)).1
  have hpattern : Word.IsWritten (-1) "#0xFFFFFFFF" :=
    @Word.IsWritten.marked (-1)
      (.pattern ⟨List.replicate 8 ('F', 15), by decide, by decide⟩) rfl
  have hgap : ∀ c ∈ ['\t', '\r', '\n'], Source.isSeparator c = true := by
    simp [Source.isSeparator, Text.isBlank]
  have hjoined : Source.Joined ["-2147483648", "#0xFFFFFFFF"] Source.dataText.toList :=
    .cons (List.cons_ne_nil _ _) hgap .last
  have hwritten : List.Forall₂ Word.IsWritten [-2147483648, -1] ["-2147483648", "#0xFFFFFFFF"] :=
    .cons hleast (.cons hpattern .nil)
  exact ⟨by decide, hwritten, hjoined,
    data_as_written.2 _ _ Source.dataText (by decide) hwritten hjoined⟩

end GridBots
