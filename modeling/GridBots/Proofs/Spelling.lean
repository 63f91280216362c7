import GridBots.Proofs.Reading
import GridBots.Proofs.Resemblance

/-!
# Spelling

An opcode may be spelled in capital or small letters, and some have a short form. Wherever the
spelling of an opcode stands in a program, as an instruction, an operand or a name, another
spelling of the same opcode may stand in its place (`SpelledAlike`). The word that begins an
alias at the beginning may be in any case. So two texts whose words are alike in this sense
(`TextsAlike`) become programs with the same words, or have the same fault
(`assembled_alike`). Where their lines end, what is between their words and what their comments
say is seen in the numbers of lines only.
-/

namespace GridBots

/-! ## What is spelled alike -/

/-- Both texts spell the same opcode. -/
def SameOpcode (a b : String) : Prop :=
  ∃ op, Opcode.ofMnemonic? a = some op ∧ Opcode.ofMnemonic? b = some op

/-- Two words are the same, or spell the same opcode, both with the mark of an immediate
    operand in front of it or both without. -/
def SpelledAlike (a b : String) : Prop :=
  a = b ∨ SameOpcode a b ∨
    ∃ v v', a = String.singleton Token.immediateMarker ++ v ∧
      b = String.singleton Token.immediateMarker ++ v' ∧ SameOpcode v v'

/-- Two texts have as many words, and these are spelled alike or begin an alias at the
    beginning. -/
structure TextsAlike (text text' : String) : Prop where
  length_eq : (Source.textWords text).length = (Source.textWords text').length
  getElem? : ∀ i a b, (Source.textWords text)[i]? = some a → (Source.textWords text')[i]? = some b →
    SpelledAlike a b ∨ ∃ k, i = 3 * k ∧ Token.IsDirective (Source.textWords text) k ∧
      Token.IsDirective (Source.textWords text') k

/-! ## Spellings of opcodes -/

section Spellings

variable {a b : String} {op : Opcode}

/-- In capital letters, a spelling of an opcode is one of those listed. -/
theorem mem_spellings (h : Opcode.ofMnemonic? a = some op) :
    (Text.upperCase a, op) ∈ Opcode.spellings := by
  obtain ⟨pre, post, heq, _⟩ := List.lookup_eq_some_iff.1 h
  rw [heq]
  exact List.mem_append_right _ List.mem_cons_self

/-- What is so of all characters in capital letters of the spellings is so of those of every
    spelling of an opcode. -/
theorem forall_toUpper {P : Char → Prop} (h : Opcode.ofMnemonic? a = some op)
    (hP : ∀ e ∈ Opcode.spellings, ∀ c ∈ e.1.toList, P c) : ∀ c ∈ a.toList, P c.toUpper := by
  intro c hc
  refine hP _ (mem_spellings h) _ ?_
  rw [Text.upperCase, String.toList_ofList]
  exact List.mem_map_of_mem hc

theorem lt_of_lt_toUpper {c : Char} (h : '9' < c.toUpper) : '9' < c := by
  by_contra hc
  -- Only letters change, which are after the digits.
  have hsame : c.toUpper = c := dif_neg fun hletter => hc (Nat.lt_of_lt_of_le (by decide) hletter.1)
  exact hc (hsame ▸ h)

/-- A spelling of an opcode has no digit in it, and no sign. -/
theorem lt_of_mem_mnemonic (h : Opcode.ofMnemonic? a = some op) : ∀ c ∈ a.toList, '9' < c := by
  have hspellings : ∀ e ∈ Opcode.spellings, (e.1.toList.all fun c => '9' < c) = true := by decide
  intro c hc
  refine lt_of_lt_toUpper (forall_toUpper h (fun e he c hc => ?_) c hc)
  exact of_decide_eq_true (List.all_eq_true.1 (hspellings e he) c hc)

theorem exists_toList_of_mnemonic (h : Opcode.ofMnemonic? a = some op) :
    ∃ c cs, a.toList = c :: cs ∧ '9' < c := by
  have hne : a.toList ≠ [] := by
    intro hnil
    have hupper : (Text.upperCase a).toList = [] := by
      rw [Text.upperCase, String.toList_ofList, hnil, List.map_nil]
    have hspellings : ∀ e ∈ Opcode.spellings, e.1.toList ≠ [] := by decide
    exact hspellings _ (mem_spellings h) hupper
  obtain ⟨c, cs, hcs⟩ := List.exists_cons_of_ne_nil hne
  exact ⟨c, cs, hcs, lt_of_mem_mnemonic h c (hcs ▸ List.mem_cons_self)⟩

/-- A spelling of an opcode is no numeral. -/
theorem parse?_of_mnemonic (h : Opcode.ofMnemonic? a = some op) : Numeral.parse? a = none := by
  obtain ⟨c, cs, hcs, hc⟩ := exists_toList_of_mnemonic h
  have hdigit : Numeral.digit? 10 c = none := by
    rw [Numeral.digit?, Option.filter_eq_none_iff, Numeral.digitValue?, if_neg (by
      exact fun hle => absurd hle.2 (Char.not_le.2 hc))]
    intro n hn
    split at hn
    · cases hn
      simp
    split at hn
    · cases hn
      simp
    · cases hn
  have hnatural : Numeral.natural? 10 (c :: cs) = none := by
    rw [Numeral.natural?, if_neg (by simp), List.mapM_cons, hdigit]
    rfl
  have hplus : c ≠ '+' := by
    rintro rfl
    exact absurd hc (by decide)
  have hminus : c ≠ '-' := by
    rintro rfl
    exact absurd hc (by decide)
  have hzero : c ≠ '0' := by
    rintro rfl
    exact absurd hc (by decide)
  rw [Numeral.parse?, hcs]
  split
  · next heq => exact absurd (List.cons.inj heq).1 hzero
  · rw [Numeral.integer?.eq_def]
    split
    · next heq => exact absurd (List.cons.inj heq).1 hminus
    · rw [Numeral.dropPlus.eq_def]
      split
      · next heq => exact absurd (List.cons.inj heq).1 hplus
      · rw [hnatural]
        rfl

/-- A spelling of an opcode is not the word that begins an alias. -/
theorem isAliasText_of_mnemonic (h : Opcode.ofMnemonic? a = some op) :
    Token.isAliasText a = false := by
  have hspellings : ∀ e ∈ Opcode.spellings, e.1 ≠ Token.aliasDirective := by decide
  exact decide_eq_false (hspellings _ (mem_spellings h))

theorem ne_brace_of_mnemonic (h : Opcode.ofMnemonic? a = some op) :
    a ≠ Token.blockOpen ∧ a ≠ Token.blockClose := by
  constructor
  · rintro rfl
    rw [Piece.ofMnemonic?_blockOpen] at h
    cases h
  · rintro rfl
    rw [Piece.ofMnemonic?_blockClose] at h
    cases h

theorem builtin?_of_mnemonic (h : Opcode.ofMnemonic? a = some op) :
    SymbolTable.builtin? a = some (Int32.ofNat op.value) := by
  rw [SymbolTable.builtin?, h]

end Spellings

/-- Names that are the same, or spell the same opcode, are taken for each other, whatever their
    lines. -/
def Resemblance.spelling : Resemblance where
  name a b := a = b ∨ SameOpcode a b
  line _ _ := True
  parse?_eq := by
    rintro a b (rfl | ⟨op, ha, hb⟩)
    · rfl
    · rw [parse?_of_mnemonic ha, parse?_of_mnemonic hb]
  ofMnemonic?_eq := by
    rintro a b (rfl | ⟨op, ha, hb⟩)
    · rfl
    · rw [ha, hb]
  builtin?_eq := by
    rintro a b (rfl | ⟨op, ha, hb⟩)
    · rfl
    · rw [builtin?_of_mnemonic ha, builtin?_of_mnemonic hb]
  isAliasText_eq := by
    rintro a b (rfl | ⟨op, ha, hb⟩)
    · rfl
    · rw [isAliasText_of_mnemonic ha, isAliasText_of_mnemonic hb]
  blockOpen_iff := by
    rintro a b (rfl | ⟨op, ha, hb⟩)
    · rfl
    · exact iff_of_false (ne_brace_of_mnemonic ha).1 (ne_brace_of_mnemonic hb).1
  blockClose_iff := by
    rintro a b (rfl | ⟨op, ha, hb⟩)
    · rfl
    · exact iff_of_false (ne_brace_of_mnemonic ha).2 (ne_brace_of_mnemonic hb).2
  eq_iff := by
    -- Neither name is the spelling of an opcode, so both are the same on either side.
    rintro a b a' b' (rfl | ⟨op, ha, _⟩) (rfl | ⟨op', ha', _⟩) hn hn'
    · rfl
    · rw [builtin?_of_mnemonic ha'] at hn'
      cases hn'
    · rw [builtin?_of_mnemonic ha] at hn
      cases hn
    · rw [builtin?_of_mnemonic ha] at hn
      cases hn
  lineAfter _ := trivial

/-! ## Words of texts -/

section Words

variable {a b text text' : String}

theorem toList_marked (v : String) :
    (String.singleton Token.immediateMarker ++ v).toList = Token.immediateMarker :: v.toList := by
  rw [String.toList_append, String.toList_singleton, List.singleton_append]

theorem tokens_of_spelledAlike (h : SpelledAlike a b) (m n : Nat) :
    Resemblance.spelling.Tokens ⟨a, m⟩ ⟨b, n⟩ := by
  have hunmarked : ∀ {a : String} {op : Opcode} (m : Nat), Opcode.ofMnemonic? a = some op →
      Token.isImmediate ⟨a, m⟩ = false := by
    intro a op m ha
    refine Bool.eq_false_iff.2 fun hi => ?_
    rw [Piece.ofMnemonic?_of_isImmediate hi] at ha
    cases ha
  rcases h with rfl | ⟨op, ha, hb⟩ | ⟨v, v', rfl, rfl, hv⟩
  · exact ⟨trivial, rfl, .inl rfl⟩
  · refine ⟨trivial, (hunmarked m ha).trans (hunmarked n hb).symm, ?_⟩
    rw [Token.operandText, Token.operandText, hunmarked m ha, hunmarked n hb]
    exact .inr ⟨op, ha, hb⟩
  · have hmarked : ∀ (v : String) (m : Nat),
        Token.isImmediate ⟨String.singleton Token.immediateMarker ++ v, m⟩ = true := by
      intro v m
      rw [Token.isImmediate, toList_marked]
      rfl
    refine ⟨trivial, (hmarked v m).trans (hmarked v' n).symm, ?_⟩
    rw [Token.operandText, Token.operandText, hmarked, hmarked, if_pos rfl, if_pos rfl,
      toList_marked, toList_marked, List.tail_cons, List.tail_cons, String.ofList_toList,
      String.ofList_toList]
    exact .inr hv

/-- No word has the reserved delimiter in it that spells an opcode or begins an alias. -/
theorem reservedDelimiter_not_mem_mnemonic {op : Opcode} (h : Opcode.ofMnemonic? a = some op) :
    Token.reservedDelimiter ∉ a.toList :=
  fun hmem => absurd (lt_of_mem_mnemonic h _ hmem) (by decide)

theorem reservedDelimiter_not_mem_alias (h : Token.isAliasText a = true) :
    Token.reservedDelimiter ∉ a.toList := by
  intro hmem
  have hupper : Token.reservedDelimiter.toUpper ∈ (Text.upperCase a).toList := by
    rw [Text.upperCase, String.toList_ofList]
    exact List.mem_map_of_mem hmem
  rw [of_decide_eq_true h] at hupper
  exact absurd hupper (by decide)

theorem reservedDelimiter_mem_iff (h : SpelledAlike a b) :
    Token.reservedDelimiter ∈ a.toList ↔ Token.reservedDelimiter ∈ b.toList := by
  rcases h with rfl | ⟨op, ha, hb⟩ | ⟨v, v', rfl, rfl, op, hv, hv'⟩
  · rfl
  · exact iff_of_false (reservedDelimiter_not_mem_mnemonic ha) (reservedDelimiter_not_mem_mnemonic hb)
  · have hne : Token.reservedDelimiter ≠ Token.immediateMarker := by decide
    rw [toList_marked, toList_marked, List.mem_cons, List.mem_cons]
    exact iff_of_false (fun h => h.elim hne (reservedDelimiter_not_mem_mnemonic hv))
      (fun h => h.elim hne (reservedDelimiter_not_mem_mnemonic hv'))

/-- The first bad word is found at the same place. -/
theorem wordsFault?_eq {words words' : List String}
    (h : List.Forall₂ (fun a b => Token.reservedDelimiter ∈ a.toList ↔
      Token.reservedDelimiter ∈ b.toList) words words') (count : Nat) :
    Source.wordsFault? count words = Source.wordsFault? count words' := by
  induction h generalizing count with
  | nil => rfl
  | cons hab _ ih => simp only [Source.wordsFault?, hab, ih]

theorem TextsAlike.wordsFault?_eq (h : TextsAlike text text') :
    Source.wordsFault? 0 (Source.textWords text) = Source.wordsFault? 0 (Source.textWords text') := by
  refine GridBots.wordsFault?_eq (List.forall₂_iff_get.2 ⟨h.length_eq, fun i hi hi' => ?_⟩) 0
  rcases h.getElem? i _ _ (List.getElem?_eq_getElem hi) (List.getElem?_eq_getElem hi') with
    ha | ⟨k, rfl, hk, hk'⟩
  · exact reservedDelimiter_mem_iff ha
  · obtain ⟨a, ha, hd⟩ := hk k (Nat.le_refl k)
    obtain ⟨b, hb, hd'⟩ := hk' k (Nat.le_refl k)
    obtain ⟨_, rfl⟩ := List.getElem?_eq_some_iff.1 ha
    obtain ⟨_, rfl⟩ := List.getElem?_eq_some_iff.1 hb
    exact iff_of_false (reservedDelimiter_not_mem_alias hd) (reservedDelimiter_not_mem_alias hd')

/-- All tokens of both texts resemble each other. -/
theorem TextsAlike.sources (h : TextsAlike text text') :
    Resemblance.spelling.Sources (Source.scan text).tokens.toList
      (Source.scan text').tokens.toList := by
  refine ⟨?_, fun i t t' hi hi' => ?_⟩
  · rw [← List.length_map Token.text, Source.texts_scan, h.length_eq, ← Source.texts_scan,
      List.length_map]
  · rw [Source.texts_scan, Source.texts_scan]
    have ha : (Source.textWords text)[i]? = some t.text := by
      rw [← Source.texts_scan, List.getElem?_map, hi, Option.map_some]
    have hb : (Source.textWords text')[i]? = some t'.text := by
      rw [← Source.texts_scan, List.getElem?_map, hi', Option.map_some]
    exact (h.getElem? i _ _ ha hb).imp (fun hab => tokens_of_spelledAlike hab _ _)
      fun hk => ⟨trivial, hk⟩

end Words

/-- Texts that are alike become programs with the same words and as many variables, or have the
    same fault. -/
theorem assembled_alike {text text' : String} (h : TextsAlike text text') :
    ResultRel (fun e e' => e.fault = e'.fault)
      (fun p p' => p.words = p'.words ∧ p.variableCount = p'.variableCount)
      (assemble text) (assemble text') := by
  have hfault := h.wordsFault?_eq
  rw [assemble, assemble]
  cases hread : Source.ofText text with
  | error e =>
    -- The same word is bad in both texts.
    cases hread' : Source.ofText text' with
    | error e' =>
      rw [Source.fault_of_ofText hread, Source.fault_of_ofText hread'] at hfault
      exact .error (Option.some.inj hfault)
    | ok s' =>
      rw [Source.fault_of_ofText hread, (Source.ofText_eq_ok_iff.1 hread').1] at hfault
      cases hfault
  | ok s =>
    obtain ⟨hnone, rfl⟩ := Source.ofText_eq_ok_iff.1 hread
    rw [Source.ofText_eq_ok_iff.2 ⟨hfault ▸ hnone, rfl⟩]
    exact (Resemblance.assemble h.sources trivial).imp (fun _ _ he => he.fault_eq)
      fun _ _ hp => ⟨hp.words_eq, hp.variableCount_eq⟩

/-- On two lines, with a comment, and on one line, where opcodes are spelled otherwise. -/
theorem textsAlike_equal :
    TextsAlike "ALIAS a eq\nPUSH #a ; the number" "alias a Equal push\t#a" := by
  have hwords : Source.textWords "ALIAS a eq\nPUSH #a ; the number" =
      ["ALIAS", "a", "eq", "PUSH", "#a"] := by decide
  have hwords' : Source.textWords "alias a Equal push\t#a" =
      ["alias", "a", "Equal", "push", "#a"] := by decide
  refine ⟨by rw [hwords, hwords']; rfl, ?_⟩
  rw [hwords, hwords']
  intro i a b ha hb
  match i with
  | 0 => exact .inr ⟨0, rfl, Token.isDirective_zero.2 (by decide), Token.isDirective_zero.2 (by decide)⟩
  | 1 | 4 =>
    cases ha
    cases hb
    exact .inl (.inl rfl)
  | 2 =>
    cases ha
    cases hb
    exact .inl (.inr (.inl ⟨.equal, by decide, by decide⟩))
  | 3 =>
    cases ha
    cases hb
    exact .inl (.inr (.inl ⟨.push, by decide, by decide⟩))
  | i + 5 => cases ha

theorem assembled_alike_equal :
    TextsAlike "ALIAS a eq\nPUSH #a ; the number" "alias a Equal push\t#a" ∧
      ∃ p p', assemble "ALIAS a eq\nPUSH #a ; the number" = .ok p ∧
        assemble "alias a Equal push\t#a" = .ok p' ∧ p.words = [805306373, 9, 0] ∧
        p.words = p'.words ∧ p.variableCount = p'.variableCount := by
  have hread : Source.ofText "ALIAS a eq\nPUSH #a ; the number" =
      .ok ⟨#[⟨"ALIAS", 1⟩, ⟨"a", 1⟩, ⟨"eq", 1⟩, ⟨"PUSH", 2⟩, ⟨"#a", 2⟩], 2⟩ :=
    Source.ofText_eq_ok_iff.2 ⟨by decide, by cbv⟩
  have hok : assemble "ALIAS a eq\nPUSH #a ; the number" =
      .ok ⟨[⟨805306373, 2⟩, ⟨9, 2⟩, ⟨0, 3⟩], 0⟩ := by
    rw [assemble, hread]
    decide +kernel
  have h := assembled_alike textsAlike_equal
  rw [hok] at h
  obtain ⟨p', hok', hp⟩ := h.exists_ok
  exact ⟨textsAlike_equal, _, p', hok, hok', rfl, hp⟩

end GridBots
