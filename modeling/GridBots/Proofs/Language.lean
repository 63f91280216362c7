import GridBots.Proofs.Bodies
import GridBots.Proofs.Definitions
import GridBots.Proofs.Reading

/-!
# The language

Which texts become programs is said of their words alone (`Source.IsProgram`,
`exists_assemble_iff`): there are not too many words, and none has the reserved delimiter in it;
aliases are complete, and stand at the beginning; labels have names, and braces are balanced; no
instruction has more than seven operands; and there are not too many names, words and variables.
Nothing else is refused by any stage of assembly.
-/

namespace GridBots

/-! ## Writing words -/

namespace SymbolTable

variable {t t' : SymbolTable} {name text : String}

/-- The variable that an operand needs, if any, where names are defined as given. -/
abbrev needed (definition? : String → Option Symbol) (text : String) : Option String :=
  (Referent.ofText definition? text).variableName?

theorem length_eraseDups_le_append (names later : List String) :
    names.eraseDups.length ≤ (names ++ later).eraseDups.length := by
  rw [List.eraseDups_append, List.length_append]
  exact Nat.le_add_right _ _

/-- A name that is not known yet becomes a variable, if there is room for one more. -/
theorem exists_settle {names : List String} (hn : t.variableNames = names.eraseDups)
    (hcap : (names ++ (Referent.ofTarget t.definition? name).variableName?.toList).eraseDups.length ≤
      variableCap) : ∃ r, t.settle name = .ok r := by
  rw [settle]
  cases hs : t.lookupTarget? name with
  | some w => exact ⟨_, rfl⟩
  | none =>
    simp only [lookupTarget?, Option.orElse_eq_orElse, Option.orElse_eq_or,
      Option.or_eq_none_iff] at hs
    obtain ⟨hb, hnumber, haddress⟩ := hs
    -- The name is a variable that is not one of the table yet.
    have hvariable : Referent.ofTarget t.definition? name = .ofVariable name := by
      rw [number?] at hnumber
      rw [Referent.ofTarget, hb]
      cases hd : t.definition? name with
      | none => rfl
      | some symbol =>
        cases symbol with
        | name _ => rfl
        | number w =>
          rw [hd] at hnumber
          cases hnumber
    have hsize : t.variableNames.length ≤ variableCap :=
      hn ▸ Nat.le_trans (length_eraseDups_le_append _ _) hcap
    have hmem := not_mem_variableNames_of_addressOf? haddress hsize
    rw [hn, List.mem_eraseDups] at hmem
    rw [hvariable] at hcap
    change (names ++ [name]).eraseDups.length ≤ _ at hcap
    rw [eraseDups_append_of_not_mem hmem, ← hn, List.length_append, List.length_singleton] at hcap
    exact ⟨_, if_pos hcap⟩

theorem exists_operand {names : List String} (ht : t.Unreserved)
    (hn : t.variableNames = names.eraseDups)
    (hcap : (names ++ (needed t.definition? text).toList).eraseDups.length ≤ variableCap) :
    ∃ r, t.operand text = .ok r := by
  rw [operand]
  rw [needed, Referent.ofText] at hcap
  cases hp : Numeral.parse? text with
  | some w => exact ⟨_, rfl⟩
  | none =>
    rw [hp] at hcap
    dsimp only at hcap ⊢
    rw [resolve_eq_settle]
    cases hd : t.definition? text with
    | some symbol =>
      cases symbol with
      | number w => exact ⟨_, rfl⟩
      | name target =>
        rw [ht.builtin?_eq (by rw [hd]; rfl), hd] at hcap
        exact exists_settle hn hcap
    | none =>
      refine exists_settle hn ?_
      rw [Referent.ofTarget, hd]
      rwa [hd] at hcap

/-- Words are written if there is room for all of them, and for all variables that their
    operands need. -/
theorem exists_write {names : List String} {room : Nat} {slots : List (Slot × Nat)}
    (ht : t.Unreserved) (hn : t.variableNames = names.eraseDups) (hr : slots.length ≤ room)
    (hskip : ∀ width line, (.skip width, line) ∈ slots →
      ∀ t : SymbolTable, t.word (.skip width) = .ok (Int32.ofNat width, t))
    (hcap : (names ++ (slotTexts slots).filterMap (needed t.definition?)).eraseDups.length ≤
      variableCap) : ∃ r, t.write room slots = .ok r := by
  induction slots generalizing t room names with
  | nil => exact ⟨_, rfl⟩
  | cons s slots ih =>
    obtain ⟨slot, line⟩ := s
    rw [List.length_cons] at hr
    have hroom : slots.length ≤ room - 1 := by omega
    -- The word of the first slot is written, and then those of the others.
    have hlater : ∀ {w t₁} {names : List String}, t.word slot = .ok (w, t₁) →
        t₁.variableNames = names.eraseDups →
        (names ++ (slotTexts slots).filterMap (needed t.definition?)).eraseDups.length ≤
          variableCap → ∃ r, t.write room ((slot, line) :: slots) = .ok r := by
      intro w t₁ names hw hnames hcap
      have hextends := (extends_word ht hw).1
      have hdefinition : t₁.definition? = t.definition? := funext fun _ => hextends.definition?_eq
      rw [← hdefinition] at hcap
      obtain ⟨⟨cells, t'⟩, h⟩ := ih (ht.extends hextends) hnames hroom
        (fun width line hmem => hskip width line (List.mem_cons_of_mem _ hmem)) hcap
      exact ⟨_, write_cons_eq_ok.2 ⟨w, t₁, cells, hw, by omega, h, rfl⟩⟩
    cases slot with
    | instruction h => exact hlater rfl hn hcap
    | skip width => exact hlater (hskip width line List.mem_cons_self t) hn hcap
    | operand text =>
      have htexts : (slotTexts ((.operand text, line) :: slots)).filterMap (needed t.definition?) =
          (needed t.definition? text).toList ++
            (slotTexts slots).filterMap (needed t.definition?) := by
        have hcons : slotTexts ((.operand text, line) :: slots) = text :: slotTexts slots := rfl
        rw [hcons, List.filterMap_cons]
        cases needed t.definition? text <;> rfl
      rw [htexts, ← List.append_assoc] at hcap
      obtain ⟨⟨w, t₁⟩, hw⟩ := exists_operand ht hn
        (Nat.le_trans (length_eraseDups_le_append _ _) hcap)
      exact hlater hw (variableNames_operand ht hw hn) hcap

end SymbolTable

/-! ## Programs -/

namespace Source

/-- What a source has to be like to become a program. -/
structure IsProgram (s : Source) : Prop where
  size_tokens_le : s.tokens.size ≤ 4096
  reservedDelimiter_not_mem : ∀ t ∈ s.tokens, '+' ∉ t.text.toList
  /-- Every alias at the beginning has a name that can be defined, and a value. -/
  aliases : Token.AliasesComplete s.tokens.toList
  /-- There are no aliases later. -/
  not_isAlias : ∀ t ∈ s.body, t.isAlias = false
  /-- Every label is followed by a name that can be defined. -/
  labels : ∀ n ∈ Token.labelNames s.body, ∃ name : Token, n = some name ∧
    name.canBeName = true ∧ SymbolTable.isReserved name.text = false
  balanced : Token.Balanced 0 s.body
  opened_le : Token.opened s.body ≤ 512
  /-- An instruction has at most seven operands, the last of which may be a block. -/
  operands_le : ∀ (i : Nat) t, s.body[i]? = some t → t.isOperation = true →
    (Token.operandSpan (s.body.drop (i + 1))).length ≤ 7
  /-- There are at most 512 different names of aliases and labels. -/
  names_le : (s.definitions.map Prod.fst).toFinset.card ≤ 512
  /-- There are at most 2000 words, with the one at the end if it is needed. -/
  written_le : (Token.written s.body).length +
    (if (Token.written s.body).getLast?.any Token.isEnd then 0 else 1) ≤ 2000
  variables_le : s.variableNames.length ≤ 1000

variable {s : Source} {p : Program}

/-! ### Programs are in the language -/

namespace Stages

variable (st : s.Stages p)

include st

theorem named_pieces : Piece.Named s.pieces := by
  rintro ⟨item, line⟩ hp rfl
  exact st.namelessLabel_not_mem line hp

theorem sized_aliases : st.aliases.Sized :=
  SymbolTable.sized_empty.defineAliases st.defineAliases_eq

theorem definable_labels : st.aliases.Definable ((Piece.labels 0 s.pieces).map Prod.fst) := by
  have hbind := st.bindLabels_eq
  rw [← st.layout_eq] at hbind
  have hcounted := Layout.counted_of_place st.find_eq st.place_eq
  rw [← st.layout_eq] at hcounted
  refine (SymbolTable.exists_bindLabels_iff st.sized_aliases ?_).1 ⟨_, hbind⟩
  rw [Nat.zero_add]
  exact hcounted.length_slots_lt

theorem written_le :
    (Token.written s.body).length +
      (if (Token.written s.body).getLast?.any Token.isEnd then 0 else 1) ≤ Program.cap := by
  have hsize := st.size_le
  rwa [st.size_eq, ← st.layout_eq, ← Layout.length_slots_ofPieces (Layout.widths s.pieces),
    Layout.isTerminated_eq_written st.named_pieces,
    Layout.length_slots_eq_written st.named_pieces] at hsize

theorem length_operandSpan_le {i : Nat} {t : Token} (hi : s.body[i]? = some t)
    (ho : t.isOperation = true) :
    (Token.operandSpan (s.body.drop (i + 1))).length ≤ Header.maxOperands := by
  obtain ⟨_, _, hs⟩ := st.exists_spells hi ho
  rw [← hs.operandCount]
  exact hs.operandCount_le

end Stages

/-- The names of a source are those of its aliases and those of its labels. -/
theorem toFinset_definitions (s : Source) :
    (s.definitions.map Prod.fst).toFinset =
      ((Token.aliases s.tokens.toList).map Prod.fst).toFinset ∪
        ((Piece.labels 0 s.pieces).map Prod.fst).toFinset := by
  rw [definitions, List.map_append, List.toFinset_append]

theorem names_of_defineAliases {t : SymbolTable} {body : List Token}
    (h : SymbolTable.empty.defineAliases s.tokens.toList = .ok (t, body)) :
    t.names = ((Token.aliases s.tokens.toList).map Prod.fst).toFinset := by
  rw [(SymbolTable.defined_aliases h).names_eq]
  exact Finset.empty_union _

/-- What becomes a program is in the language. -/
theorem Stages.isProgram (st : s.Stages p) (hsize : s.tokens.size ≤ tokenCap)
    (hdelimiter : ∀ t ∈ s.tokens, Token.reservedDelimiter ∉ t.text.toList) : s.IsProgram := by
  obtain ⟨hnamed, hbalanced, hopened⟩ :=
    (Block.firstFault?_eq_none_iff (Nat.zero_le _)).1 st.blockFault?_eq_none
  have hlabels := st.definable_labels
  refine ⟨hsize, hdelimiter, ?_, ?_, fun n hn => ?_, hbalanced, ?_, ?_, ?_, st.written_le,
    st.length_variableNames_le⟩
  · exact ((SymbolTable.exists_defineAliases_iff SymbolTable.sized_empty).1
      ⟨_, st.defineAliases_eq⟩).1
  · intro t ht
    exact Bool.eq_false_iff.2 (List.find?_eq_none.1 st.find?_isAlias t ht)
  · obtain ⟨name, rfl, hname⟩ := Piece.named_ofTokens_iff.1 hnamed n hn
    refine ⟨name, rfl, hname, hlabels.unreserved _ ?_⟩
    rw [Piece.map_fst_labels hnamed]
    exact List.mem_filterMap.2 ⟨_, hn, rfl⟩
  · rwa [Nat.zero_add] at hopened
  · intro i t hi ho
    exact st.length_operandSpan_le hi ho
  · have hcard := hlabels.card_le
    rwa [names_of_defineAliases st.defineAliases_eq, ← toFinset_definitions] at hcard

/-! ### What is in the language becomes a program -/

namespace IsProgram

variable (h : s.IsProgram)

include h

theorem named : Piece.Named s.pieces :=
  Piece.named_ofTokens_iff.2 fun n hn =>
    let ⟨name, hname, hcan, _⟩ := h.labels n hn
    ⟨name, hname, hcan⟩

theorem blockFault?_eq_none : Block.fault? s.pieces = none := by
  refine (Block.firstFault?_eq_none_iff (Nat.zero_le _)).2 ⟨h.named, h.balanced, ?_⟩
  rw [Nat.zero_add]
  exact h.opened_le

theorem exists_aliases :
    ∃ t, SymbolTable.empty.defineAliases s.tokens.toList = .ok (t, s.body) := by
  have hcard : (SymbolTable.empty.names ∪
      ((Token.aliases s.tokens.toList).map Prod.fst).toFinset).card ≤ SymbolTable.entryCap := by
    refine Nat.le_trans (Finset.card_le_card ?_) h.names_le
    rw [toFinset_definitions]
    exact Finset.union_subset (Finset.empty_subset _) Finset.subset_union_left
  obtain ⟨⟨t, body⟩, ht⟩ := (SymbolTable.exists_defineAliases_iff SymbolTable.sized_empty).2
    ⟨h.aliases, SymbolTable.isReserved_of_aliasesComplete h.aliases, hcard⟩
  obtain rfl := afterAliases_of_defineAliases ht
  exact ⟨t, ht⟩

theorem exists_labels {aliases : SymbolTable} {widths : List Nat}
    (hcounted : (Layout.ofPieces widths s.pieces).Counted)
    (ha : SymbolTable.empty.defineAliases s.tokens.toList = .ok (aliases, s.body)) :
    ∃ t, Layout.bindLabels 0 aliases (Layout.ofPieces widths s.pieces) = .ok t := by
  have hlt : 0 + (Layout.ofPieces widths s.pieces).slots.length < 0x80000000 := by
    rw [Nat.zero_add]
    exact hcounted.length_slots_lt
  refine (SymbolTable.exists_bindLabels_iff (SymbolTable.sized_empty.defineAliases ha) hlt).2
    ⟨fun name hname => ?_, ?_⟩
  · rw [Piece.map_fst_labels h.named] at hname
    obtain ⟨n, hn, htext⟩ := List.mem_filterMap.1 hname
    obtain ⟨name, rfl, _, hr⟩ := h.labels n hn
    cases htext
    exact hr
  · rw [names_of_defineAliases ha, ← toFinset_definitions]
    exact h.names_le

theorem length_body_le : s.body.length ≤ tokenCap := by
  refine Nat.le_trans ?_ h.size_tokens_le
  rw [← Array.length_toList, body]
  exact (Token.afterAliases_suffix _).length_le

/-- There is room for the instruction at the end: there are at most 2000 words, and labels take
    two of the 4096 tokens each. -/
theorem length_layout_lt {widths : List Nat}
    (hends : (Layout.ofPieces widths s.pieces).isTerminated = false) :
    (Layout.ofPieces widths s.pieces).length < Layout.cap := by
  have hlength := Layout.two_mul_length_le widths s.pieces
  have hbody := h.length_body_le
  have hwritten := h.written_le
  rw [Layout.isTerminated_eq_written h.named] at hends
  rw [Piece.tokenCount_ofTokens, ← Layout.length_slots_ofPieces widths,
    Layout.length_slots_eq_written h.named] at hlength
  rw [hends, if_neg Bool.false_ne_true] at hwritten
  rw [tokenCap] at hbody
  rw [Layout.cap]
  omega

theorem exists_finished (widths : List Nat) :
    ∃ finished, (Layout.ofPieces widths s.pieces).terminate s.lineCount = .ok finished ∧
      finished.slots.length ≤ Program.cap := by
  obtain ⟨finished, hfinished⟩ := Layout.exists_terminate h.length_layout_lt s.lineCount
  have hends : (Layout.ofPieces widths s.pieces).isTerminated =
      (Token.written s.body).getLast?.any Token.isEnd := Layout.isTerminated_eq_written h.named
  have hwritten : _ ≤ Program.cap := h.written_le
  refine ⟨finished, hfinished, ?_⟩
  rw [Layout.slots_terminate hfinished, List.length_append,
    Layout.length_slots_eq_written h.named, hends]
  split
  · next ht => rwa [if_pos ht] at hwritten
  · next ht => rwa [if_neg ht] at hwritten

/-- A source in the language goes through all stages of assembly. -/
theorem exists_assemble : ∃ p, s.assemble = .ok p := by
  obtain ⟨aliases, ha⟩ := h.exists_aliases
  have hstray : s.body.find? Token.isAlias = none :=
    List.find?_eq_none.2 fun t ht => by rw [h.not_isAlias t ht]; exact Bool.false_ne_true
  have hblocks := Block.find_eq_ok_iff.2 ⟨h.blockFault?_eq_none, rfl⟩
  have hlayout := Layout.exists_place h.length_body_le h.blockFault?_eq_none h.operands_le
  have hcounted := Layout.counted_of_place hblocks hlayout
  obtain ⟨labels, hl⟩ := h.exists_labels hcounted ha
  obtain ⟨finished, hf, hroom⟩ := h.exists_finished (Layout.widths s.pieces)
  obtain ⟨hdefinition, hempty⟩ := defined_of_bindLabels ha hl
  have hunreserved : labels.Unreserved :=
    (SymbolTable.unreserved_empty.defineAliases ha).bindLabels hl
  have hnone : labels.variableNames = ([] : List String).eraseDups := hempty
  have hskip : ∀ width line, (.skip width, line) ∈ finished.slots →
      ∀ t : SymbolTable, t.word (.skip width) = .ok (Int32.ofNat width, t) := by
    intro width line hmem
    rw [Layout.slots_terminate hf] at hmem
    rcases List.mem_append.1 hmem with hmem | hmem
    · exact hcounted.word_skip hmem
    · split at hmem <;> simp at hmem
  obtain ⟨⟨cells, symbols⟩, hw⟩ := SymbolTable.exists_write hunreserved hnone hroom hskip (by
    rw [hdefinition, slotTexts_of_terminate hf]
    exact h.variables_le)
  exact ⟨⟨cells, symbols.variableNames.length⟩, nonempty_stages_iff.2
    ⟨⟨aliases, _, _, labels, finished, symbols, ha, hstray, hblocks, hlayout, hl, hf, hw, rfl⟩⟩⟩

end IsProgram

/-- A source of at most 4096 tokens without the reserved delimiter becomes a program exactly if it
    is in the language. -/
theorem exists_assemble_iff_isProgram (hsize : s.tokens.size ≤ tokenCap)
    (hdelimiter : ∀ t ∈ s.tokens, Token.reservedDelimiter ∉ t.text.toList) :
    (∃ p, s.assemble = .ok p) ↔ s.IsProgram := by
  constructor
  · rintro ⟨p, h⟩
    obtain ⟨st⟩ := nonempty_stages_iff.1 h
    exact st.isProgram hsize hdelimiter
  · exact fun h => h.exists_assemble

end Source

/-- A text becomes a program exactly if what is read of it is in the language. -/
theorem exists_assemble_iff (text : String) :
    (∃ p, assemble text = .ok p) ↔ (Source.scan text).IsProgram := by
  have hbad : Source.wordsFault? 0 (Source.textWords text) = none ↔
      (∀ t ∈ (Source.scan text).tokens, Token.reservedDelimiter ∉ t.text.toList) ∧
        (Source.scan text).tokens.size ≤ Source.tokenCap := by
    rw [Source.wordsFault?_eq_none_iff (Nat.zero_le _), Nat.zero_add, Source.size_tokens_scan,
      ← Source.texts_scan, List.forall_mem_map]
    simp only [Array.mem_toList_iff]
  constructor
  · rintro ⟨p, h⟩
    obtain ⟨s, hs, h⟩ := except_bind_eq_ok.1 h
    obtain ⟨hwords, rfl⟩ := Source.ofText_eq_ok_iff.1 hs
    obtain ⟨hdelimiter, hsize⟩ := hbad.1 hwords
    exact (Source.exists_assemble_iff_isProgram hsize hdelimiter).1 ⟨p, h⟩
  · intro h
    obtain ⟨p, hp⟩ := h.exists_assemble
    have hwords := hbad.2 ⟨h.reservedDelimiter_not_mem, h.size_tokens_le⟩
    exact ⟨p, except_bind_eq_ok.2 ⟨_, Source.ofText_eq_ok_iff.2 ⟨hwords, rfl⟩, hp⟩⟩

end GridBots
