import GridBots.Proofs.Instructions
import Mathlib.Data.List.Induction
import Mathlib.Data.List.Nodup

/-!
# What operands stand for

The word of an operand follows one rule (`Source.referent`), which does not depend on where
the operand stands. A numeral is the word that it writes. A built-in name stands for its
word. A name that is defined stands for what its last definition says, and labels count as
later than aliases. If that is another name, the other is a built-in name, or a number by its
last definition, or else a variable. All other names are variables.

The variables of a program are numbered in the order in which its operands first need them
(`Source.variableNames`), and so they have addresses one after the other (`Source.address?`). That
the words of a program are found in this way is `operands_as_resolved`: the table that is
made while they are written has the definitions of the source (`Stages.definition?_symbols`)
and ends with the variables of the source (`Stages.variableNames_symbols`).
-/

namespace GridBots

open Block (widthOf)
open Layout (emitted)

/-! ## The rule -/

/-- What an operand stands for: a word that is known beforehand, or a variable. -/
inductive Referent
  | word (w : Word)
  | ofVariable (name : String)
  deriving DecidableEq, Repr

namespace Referent

/-- What a name stands for by itself, if names are defined as given. -/
def ofTarget (definition? : String → Option Symbol) (name : String) : Referent :=
  match SymbolTable.builtin? name with
  | some w => word w
  | none =>
    match definition? name with
    | some (.number w) => word w
    | _ => ofVariable name

/-- What an operand stands for, if names are defined as given. -/
def ofText (definition? : String → Option Symbol) (text : String) : Referent :=
  match Numeral.parse? text with
  | some w => word w
  | none =>
    match SymbolTable.builtin? text with
    | some w => word w
    | none =>
      match definition? text with
      | some (.number w) => word w
      | some (.name target) => ofTarget definition? target
      | none => ofVariable text

/-- The variable that is meant, if it is one. -/
def variableName? : Referent → Option String
  | word _ => none
  | ofVariable name => some name

/-- The word that is meant, if variables have the given addresses. -/
def word? (address? : String → Option Word) : Referent → Option Word
  | word w => some w
  | ofVariable name => address? name

end Referent

/-- The aliases at the beginning of tokens, each a name and its value. -/
def Token.aliases : List Token → List (String × Symbol)
  | d :: name :: value :: rest =>
    if d.isAlias then (name.text, Symbol.ofText value.text) :: aliases rest else []
  | _ => []

/-- The labels among pieces, each a name and the address of the word after it, where the next
    word has the given address. -/
def Piece.labels (address : Nat) : List Piece → List (String × Symbol)
  | [] => []
  | ⟨.label name, _⟩ :: rest => (name, .number (Int32.ofNat address)) :: labels address rest
  | p :: rest => labels (address + p.item.width) rest

/-- The texts of the operands among pieces, in their order. -/
def Piece.operandTexts (pieces : List Piece) : List String :=
  pieces.filterMap fun p =>
    match p.item with
    | .operand text _ => some text
    | _ => none

namespace Source

/-- The definitions of a source: its aliases, and then its labels. -/
def definitions (s : Source) : List (String × Symbol) :=
  Token.aliases s.tokens.toList ++ Piece.labels 0 s.pieces

/-- The last definition of a name. -/
def definition? (s : Source) (name : String) : Option Symbol :=
  s.definitions.reverse.lookup name

/-- What an operand with a text stands for. -/
def referent (s : Source) (text : String) : Referent :=
  .ofText s.definition? text

/-- The variables of a source, in the order in which operands first need them. -/
def variableNames (s : Source) : List String :=
  ((Piece.operandTexts s.pieces).filterMap fun text => (s.referent text).variableName?).eraseDups

/-- The address of a variable. -/
def address? (s : Source) (name : String) : Option Word :=
  (s.variableNames.idxOf? name).map SymbolTable.variableAddress

/-- The word that an operand with a text stands for. -/
def word? (s : Source) (text : String) : Option Word :=
  (s.referent text).word? s.address?

/-- The token of a body with an index is an operand: it is neither a brace nor an opcode, nor
    the name of a label. -/
structure IsOperand (s : Source) (i : Nat) (t : Token) : Prop where
  getElem?_eq : s.body[i]? = some t
  text_ne : t.text ≠ Token.blockOpen ∧ t.text ≠ Token.blockClose
  ofMnemonic?_eq : Opcode.ofMnemonic? t.text = none
  not_isLabel : ∀ j d, j + 1 = i → s.body[j]? = some d → ¬d.isLabel = true

end Source

/-! ## Lists in which only the first of equal members counts -/

section EraseDups

variable {α : Type} [BEq α] [LawfulBEq α] {l : List α} {a : α}

theorem eraseDups_append_of_mem (h : a ∈ l) : (l ++ [a]).eraseDups = l.eraseDups := by
  rw [List.eraseDups_append, List.removeAll, List.filter_cons_of_neg (by simpa using h)]
  exact List.append_nil _

theorem eraseDups_append_of_not_mem (h : a ∉ l) : (l ++ [a]).eraseDups = l.eraseDups ++ [a] := by
  rw [List.eraseDups_append, List.removeAll, List.filter_cons_of_pos (by simpa using h)]
  rfl

theorem nodup_eraseDups (l : List α) : l.eraseDups.Nodup := by
  induction l using List.reverseRecOn with
  | nil => exact List.nodup_nil
  | append_singleton l a ih =>
    by_cases h : a ∈ l
    · rwa [eraseDups_append_of_mem h]
    · rw [eraseDups_append_of_not_mem h]
      refine List.nodup_append.2 ⟨ih, List.nodup_singleton a, fun b hb c hc => ?_⟩
      rw [List.mem_singleton.1 hc]
      exact ne_of_mem_of_not_mem (List.mem_eraseDups.1 hb) h

end EraseDups

/-! ## Definitions -/

theorem lookup_reverse_cons {α : Type} (name other : String) (value : α)
    (l : List (String × α)) :
    ((name, value) :: l).reverse.lookup other =
      (l.reverse.lookup other).or (if other = name then some value else none) := by
  rw [List.reverse_cons, List.lookup_append, List.lookup_cons]
  by_cases h : other = name
  · rw [h, beq_self_eq_true, if_pos rfl]
  · rw [beq_false_of_ne h, if_neg h]
    rfl

namespace SymbolTable

variable {t t' : SymbolTable} {name text : String} {w : Word}

/-- The table `t'` is `t` after names are defined one after the other. The last definition of
    a name counts. -/
structure Defined (t : SymbolTable) (definitions : List (String × Symbol)) (t' : SymbolTable) :
    Prop where
  definition?_eq : ∀ other,
    t'.definition? other = (definitions.reverse.lookup other).or (t.definition? other)
  variableNames_eq : t'.variableNames = t.variableNames

theorem Defined.nil (t : SymbolTable) : t.Defined [] t :=
  ⟨fun _ => rfl, rfl⟩

theorem variableNames_define {value : Symbol} (h : t.define name value = .ok t') :
    t'.variableNames = t.variableNames := by
  rw [define] at h
  split at h
  · simp at h
  split at h
  · simp at h
  · cases h
    rfl

theorem Defined.cons {t₁ : SymbolTable} {value : Symbol} {later : List (String × Symbol)}
    (h : t.define name value = .ok t₁) (hl : t₁.Defined later t') :
    t.Defined ((name, value) :: later) t' := by
  refine ⟨fun other => ?_, hl.variableNames_eq.trans (variableNames_define h)⟩
  rw [hl.definition?_eq, definition?_define h, lookup_reverse_cons, Option.or_assoc]
  by_cases ho : other = name
  · rw [if_pos ho, if_pos ho]
    rfl
  · rw [if_neg ho, if_neg ho]
    rfl

theorem defined_aliases {tokens body : List Token}
    (h : t.defineAliases tokens = .ok (t', body)) : t.Defined (Token.aliases tokens) t' := by
  induction t, tokens using defineAliases.induct with
  | case1 t => cases h; exact .nil _
  | case2 t d hd name value rest hn ih =>
    rw [defineAliases, if_pos hd, if_pos hn, except_bind_eq_ok] at h
    obtain ⟨t₁, h₁, h⟩ := h
    rw [Token.aliases, if_pos hd]
    exact .cons (atLine_eq_ok.1 h₁) (ih t₁ h)
  | case3 t d hd name value rest hn =>
    rw [defineAliases, if_pos hd, if_neg hn] at h
    simp at h
  | case4 t d rest hd hr =>
    rw [defineAliases.eq_def] at h
    simp only [hd, if_true] at h
    simp at h
  | case5 t d rest hd =>
    rw [defineAliases.eq_def] at h
    simp only [hd] at h
    cases h
    rw [Token.aliases.eq_def]
    split
    · next h' =>
      cases h'
      rw [if_neg hd]
      exact .nil _
    · exact .nil _

theorem defined_labels {address : Nat} {widths : List Nat} {pieces : List Piece}
    (h : Layout.bindLabels address t (Layout.ofPieces widths pieces) = .ok t') :
    t.Defined (Piece.labels address pieces) t' := by
  induction pieces generalizing address t widths with
  | nil => cases h; exact .nil _
  | cons p pieces ih =>
    obtain ⟨item, line⟩ := p
    cases item with
    | label name =>
      rw [Layout.ofPieces, Layout.bindLabels_label_eq_ok] at h
      obtain ⟨_, t₁, h₁, h⟩ := h
      exact .cons h₁ (ih h)
    | opening => exact ih h
    | closing => exact ih h
    | namelessLabel => exact ih h
    | operation op => exact ih h
    | operand text immediate => exact ih h

/-! ## Variables -/

/-- What an operand is known to be in a table is what it stands for by the rule, with the
    definitions and the variables of the table. -/
theorem value?_eq (t : SymbolTable) (text : String) :
    t.value? text = (Referent.ofText t.definition? text).word? t.addressOf? := by
  rw [value?, Referent.ofText]
  cases Numeral.parse? text with
  | some w => rfl
  | none =>
    rw [lookup]
    cases builtin? text with
    | some w => rfl
    | none =>
      cases t.definition? text with
      | none => rfl
      | some symbol =>
        cases symbol with
        | number w => rfl
        | name target =>
          simp only [lookupTarget?, number?, Referent.ofTarget]
          cases builtin? target with
          | some w => rfl
          | none =>
            cases t.definition? target with
            | none => rfl
            | some symbol => cases symbol <;> rfl

theorem mem_variableNames_of_addressOf? (h : t.addressOf? name = some w) :
    name ∈ t.variableNames := by
  obtain ⟨index, hi, _⟩ := Option.bind_eq_some_iff.1 h
  obtain ⟨hlt, heq, _⟩ := List.idxOf?_eq_some_iff.1 hi
  exact heq ▸ List.getElem_mem hlt

/-- A name that is used for what it is by itself becomes the last variable, unless it is none
    or is one already. -/
theorem variableNames_settle {needed : List String} (h : t.settle name = .ok (w, t'))
    (hn : t.variableNames = needed.eraseDups) :
    t'.variableNames =
      (needed ++ (Referent.ofTarget t.definition? name).variableName?.toList).eraseDups := by
  have hword : ∀ v, t.lookupTarget? name = some v → t' = t := by
    intro v hv
    rw [settle, hv] at h
    cases h
    rfl
  rw [Referent.ofTarget]
  cases hb : builtin? name with
  | some v =>
    rw [hword v (by rw [lookupTarget?, hb]; rfl)]
    simpa [Referent.variableName?] using hn
  | none =>
    have hvariable : t.number? name = none →
        t'.variableNames = (needed ++ [name]).eraseDups := by
      intro hnumber
      have hs : t.lookupTarget? name = t.addressOf? name := by
        rw [lookupTarget?, hb, hnumber]
        rfl
      cases ha : t.addressOf? name with
      | some v =>
        have hmem := mem_variableNames_of_addressOf? ha
        rw [hn, List.mem_eraseDups] at hmem
        rw [hword v (hs.trans ha), hn, eraseDups_append_of_mem hmem]
      | none =>
        rw [settle, hs.trans ha] at h
        dsimp only at h
        split at h
        · next hroom =>
          have hmem := not_mem_variableNames_of_addressOf? ha (Nat.le_of_lt hroom)
          rw [hn, List.mem_eraseDups] at hmem
          cases h
          rw [eraseDups_append_of_not_mem hmem, ← hn]
        · simp at h
    cases hd : t.definition? name with
    | none => exact hvariable (by rw [number?, hd])
    | some symbol =>
      cases symbol with
      | name target => exact hvariable (by rw [number?, hd])
      | number v =>
        rw [hword v (by rw [lookupTarget?, hb, number?, hd]; rfl)]
        simpa [Referent.variableName?] using hn

/-- After an operand is written, the variable that it needs is one of the variables. -/
theorem variableNames_operand {needed : List String} (ht : t.Unreserved)
    (h : t.operand text = .ok (w, t')) (hn : t.variableNames = needed.eraseDups) :
    t'.variableNames =
      (needed ++ (Referent.ofText t.definition? text).variableName?.toList).eraseDups := by
  rw [operand] at h
  rw [Referent.ofText]
  cases hp : Numeral.parse? text with
  | some v =>
    rw [hp] at h
    cases h
    simpa [Referent.variableName?] using hn
  | none =>
    rw [hp] at h
    dsimp only at h ⊢
    rw [resolve_eq_settle] at h
    cases hd : t.definition? text with
    | some symbol =>
      -- A name that is defined is not built in.
      rw [ht.builtin?_eq (by rw [hd]; rfl)]
      rw [hd] at h
      cases symbol with
      | number v =>
        cases h
        simpa [Referent.variableName?] using hn
      | name target => exact variableNames_settle h hn
    | none =>
      rw [hd] at h
      have hs := variableNames_settle h hn
      rw [Referent.ofTarget, hd] at hs
      exact hs

theorem length_variableNames_settle (h : t.settle name = .ok (w, t'))
    (hn : t.variableNames.length ≤ variableCap) : t'.variableNames.length ≤ variableCap := by
  rw [settle] at h
  split at h
  · cases h
    exact hn
  · split at h
    · next hlt =>
      cases h
      rw [List.length_append]
      exact hlt
    · simp at h

theorem length_variableNames_word {slot : Slot} (h : t.word slot = .ok (w, t'))
    (hn : t.variableNames.length ≤ variableCap) : t'.variableNames.length ≤ variableCap := by
  cases slot with
  | instruction _ => cases h; exact hn
  | skip _ =>
    obtain ⟨_, _, rfl⟩ := word_skip_eq_ok.1 h
    exact hn
  | operand text =>
    rw [word, operand] at h
    split at h
    · cases h
      exact hn
    rw [resolve_eq_settle] at h
    split at h
    · cases h
      exact hn
    · exact length_variableNames_settle h hn
    · exact length_variableNames_settle h hn

/-- The texts of the operands among slots, in their order. -/
def slotTexts (slots : List (Slot × Nat)) : List String :=
  slots.filterMap fun s =>
    match s.1 with
    | .operand text => some text
    | _ => none

/-- The variables of a table after words are written are those that their operands need, each
    counted when it is first needed. -/
theorem variableNames_write {room : Nat} {slots : List (Slot × Nat)} {cells : List Cell}
    {needed : List String} (ht : t.Unreserved) (h : t.write room slots = .ok (cells, t'))
    (hn : t.variableNames = needed.eraseDups) :
    t'.variableNames = (needed ++ (slotTexts slots).filterMap fun text =>
      (Referent.ofText t.definition? text).variableName?).eraseDups := by
  induction slots generalizing t room cells needed with
  | nil =>
    cases h
    rw [hn]
    exact congrArg _ (List.append_nil _).symm
  | cons s slots ih =>
    obtain ⟨slot, line⟩ := s
    obtain ⟨w, t₁, later, h₁, _, h₂, rfl⟩ := write_cons_eq_ok.1 h
    have hextends := (extends_word ht h₁).1
    have hdefinition : t₁.definition? = t.definition? := funext fun _ => hextends.definition?_eq
    have hlater : ∀ {names : List String}, t₁.variableNames = names.eraseDups →
        t'.variableNames = (names ++ (slotTexts slots).filterMap fun text =>
          (Referent.ofText t.definition? text).variableName?).eraseDups := by
      intro names hnames
      have hih := ih (ht.extends hextends) h₂ hnames
      rwa [hdefinition] at hih
    cases slot with
    | instruction _ => cases h₁; exact hlater hn
    | skip _ =>
      obtain ⟨_, _, rfl⟩ := word_skip_eq_ok.1 h₁
      exact hlater hn
    | operand text =>
      have htexts : slotTexts ((.operand text, line) :: slots) = text :: slotTexts slots := rfl
      rw [hlater (variableNames_operand ht h₁ hn), List.append_assoc, htexts, List.filterMap_cons]
      cases (Referent.ofText t.definition? text).variableName? <;> rfl

theorem length_variableNames_write {room : Nat} {slots : List (Slot × Nat)} {cells : List Cell}
    (h : t.write room slots = .ok (cells, t')) (hn : t.variableNames.length ≤ variableCap) :
    t'.variableNames.length ≤ variableCap := by
  induction slots generalizing t room cells with
  | nil => cases h; exact hn
  | cons s slots ih =>
    obtain ⟨w, t₁, later, h₁, _, h₂, rfl⟩ := write_cons_eq_ok.1 h
    exact ih h₂ (length_variableNames_word h₁ hn)

end SymbolTable

theorem Layout.slotTexts_ofPieces (widths : List Nat) (pieces : List Piece) :
    SymbolTable.slotTexts (ofPieces widths pieces).slots = Piece.operandTexts pieces := by
  induction pieces generalizing widths with
  | nil => rfl
  | cons p pieces ih =>
    obtain ⟨item, line⟩ := p
    cases item with
    | opening => exact ih _
    | closing => exact ih _
    | label _ => exact ih _
    | namelessLabel => exact ih _
    | operation _ => exact ih _
    | operand text _ => exact congrArg (text :: ·) (ih _)

/-! ## Programs -/

/-- After a token that does not begin a label, tokens can be cut. -/
theorem Piece.ofTokens_append_of_not_isLabel {d : Token} (hd : ¬d.isLabel = true)
    (pre post : List Token) :
    ofTokens (pre ++ d :: post) = ofTokens (pre ++ [d]) ++ ofTokens post := by
  induction pre using ofTokens.induct with
  | case1 => rw [List.nil_append, List.nil_append, ofTokens_cons hd, ofTokens_cons hd]; rfl
  | case2 t ht =>
    rw [List.singleton_append, List.singleton_append]
    by_cases hn : d.canBeName = true
    · rw [ofTokens_label ht hn, ofTokens_label ht hn]
      rfl
    · rw [ofTokens_namelessLabel ht hn, ofTokens_namelessLabel ht hn, ofTokens_cons hd,
        ofTokens_cons hd]
      rfl
  | case3 t ht name rest hn ih =>
    simp only [List.cons_append, ofTokens_label ht hn, ih]
  | case4 t ht name rest hn ih =>
    simp only [List.cons_append] at ih ⊢
    simp only [ofTokens_namelessLabel ht hn, ih, List.cons_append]
  | case5 t rest ht ih =>
    simp only [List.cons_append, ofTokens_cons ht, ih]

/-- A label among pieces comes from two of the tokens, one after the other. -/
theorem Piece.exists_tokens_of_label {tokens : List Token} {name : String} {line : Nat}
    (h : ⟨.label name, line⟩ ∈ ofTokens tokens) :
    ∃ i d n, tokens[i]? = some d ∧ d.isLabel = true ∧ tokens[i + 1]? = some n ∧ n.text = name := by
  induction tokens using ofTokens.induct with
  | case1 => exact absurd h List.not_mem_nil
  | case2 t ht =>
    rw [ofTokens, if_pos ht, List.mem_singleton] at h
    simp at h
  | case3 t ht n rest hn ih =>
    rw [ofTokens_label ht hn] at h
    rcases List.mem_cons.1 h with h | h
    · cases h
      exact ⟨0, t, n, rfl, ht, rfl, rfl⟩
    · obtain ⟨i, d, n', hi⟩ := ih h
      exact ⟨i + 2, d, n', hi⟩
  | case4 t ht n rest hn ih =>
    rw [ofTokens_namelessLabel ht hn] at h
    rcases List.mem_cons.1 h with h | h
    · simp at h
    · obtain ⟨i, d, n', hi⟩ := ih h
      exact ⟨i + 1, d, n', hi⟩
  | case5 t rest ht ih =>
    rw [ofTokens_cons ht] at h
    rcases List.mem_cons.1 h with h | h
    · rcases ofToken_cases t with ⟨_, hp⟩ | ⟨_, hp⟩ | ⟨_, _, ⟨_, _, hp⟩ | ⟨_, hp⟩⟩ <;>
        rw [hp] at h <;> simp at h
    · obtain ⟨i, d, n', hi⟩ := ih h
      exact ⟨i + 1, d, n', hi⟩

theorem Piece.labels_append (address : Nat) (pre post : List Piece) :
    labels address (pre ++ post) = labels address pre ++ labels (address + widthOf pre) post := by
  induction pre generalizing address with
  | nil => rfl
  | cons p pre ih =>
    obtain ⟨item, line⟩ := p
    rw [List.cons_append, widthOf, ← Nat.add_assoc]
    cases item with
    | label name => exact congrArg (_ :: ·) (ih address)
    | opening => exact ih _
    | closing => exact ih _
    | namelessLabel => exact ih _
    | operation _ => exact ih _
    | operand _ _ => exact ih _

theorem Piece.lookup_labels {address : Nat} {pieces : List Piece} {name : String}
    (h : ∀ line, ⟨.label name, line⟩ ∉ pieces) :
    (labels address pieces).reverse.lookup name = none := by
  induction pieces generalizing address with
  | nil => rfl
  | cons p pieces ih =>
    obtain ⟨item, line⟩ := p
    have hlater : ∀ line, ⟨.label name, line⟩ ∉ pieces := fun line hm =>
      h line (List.mem_cons_of_mem _ hm)
    cases item with
    | label other =>
      have hne : name ≠ other := fun heq => h line (heq ▸ List.mem_cons_self)
      rw [labels, lookup_reverse_cons, ih hlater, if_neg hne]
      rfl
    | opening => exact ih hlater
    | closing => exact ih hlater
    | namelessLabel => exact ih hlater
    | operation _ => exact ih hlater
    | operand _ _ => exact ih hlater

namespace Source

variable {s : Source} {p : Program}

/-- The label of a body with an index, whose name is the token after it, is the last label of
    that name. -/
structure IsLastLabel (s : Source) (i : Nat) (d name : Token) : Prop where
  getElem?_eq : s.body[i]? = some d
  isLabel : d.isLabel = true
  getElem?_succ_eq : s.body[i + 1]? = some name
  last : ∀ j d' other, i < j → s.body[j]? = some d' → d'.isLabel = true →
    s.body[j + 1]? = some other → other.text ≠ name.text

/-- A token of a body is a piece of its own if it is neither a label nor the name of one. -/
theorem pieces_of_not_isLabel {i : Nat} {t : Token} (hi : s.body[i]? = some t)
    (ht : ¬t.isLabel = true)
    (hbefore : ∀ j d, j + 1 = i → s.body[j]? = some d → ¬d.isLabel = true) :
    s.pieces = Piece.ofTokens (s.body.take i) ++
      Piece.ofToken t :: Piece.ofTokens (s.body.drop (i + 1)) := by
  rw [← Piece.ofTokens_cons ht, ← drop_eq_cons hi]
  cases i with
  | zero => rfl
  | succ j =>
    have hj := Nat.lt_of_succ_lt (List.getElem?_eq_some_iff.1 hi).1
    obtain ⟨d, hd⟩ : ∃ d, s.body[j]? = some d := ⟨_, List.getElem?_eq_getElem hj⟩
    have hcut := Piece.ofTokens_append_of_not_isLabel (hbefore j d rfl hd)
      (s.body.take j) (s.body.drop (j + 1))
    have htake : s.body.take j ++ [d] = s.body.take (j + 1) := by
      rw [List.take_add_one, hd]
      rfl
    rwa [← eq_take_cons_drop hd, htake] at hcut

/-- An operand of a body is a piece of its own. -/
theorem IsOperand.pieces_eq {i : Nat} {t : Token} (h : s.IsOperand i t) :
    s.pieces = Piece.ofTokens (s.body.take i) ++
      ⟨.operand t.operandText t.isImmediate, t.line⟩ :: Piece.ofTokens (s.body.drop (i + 1)) := by
  rw [← Piece.ofToken_operand h.ofMnemonic?_eq h.text_ne.1 h.text_ne.2]
  exact pieces_of_not_isLabel h.getElem?_eq
    (Piece.not_isLabel_of_ofMnemonic?_eq_none h.ofMnemonic?_eq) h.not_isLabel

/-- After all labels are defined, a name is defined as its last definition in the source says. -/
theorem defined_of_bindLabels {aliases labels : SymbolTable} {body : List Token}
    {widths : List Nat}
    (ha : SymbolTable.empty.defineAliases s.tokens.toList = .ok (aliases, body))
    (hl : Layout.bindLabels 0 aliases (Layout.ofPieces widths s.pieces) = .ok labels) :
    labels.definition? = s.definition? ∧ labels.variableNames = [] := by
  have haliases := SymbolTable.defined_aliases ha
  have hlabels := SymbolTable.defined_labels hl
  refine ⟨funext fun name => ?_, hlabels.variableNames_eq.trans haliases.variableNames_eq⟩
  rw [hlabels.definition?_eq, haliases.definition?_eq, definition?, definitions,
    List.reverse_append, List.lookup_append]
  exact congrArg _ Option.or_none

/-- The instruction that is added at the end has no operands. -/
theorem slotTexts_of_terminate {widths : List Nat} {finished : Layout} {lineCount : Nat}
    (h : (Layout.ofPieces widths s.pieces).terminate lineCount = .ok finished) :
    SymbolTable.slotTexts finished.slots = Piece.operandTexts s.pieces := by
  rw [Layout.slots_terminate h, SymbolTable.slotTexts, List.filterMap_append,
    ← SymbolTable.slotTexts, Layout.slotTexts_ofPieces]
  split <;> exact List.append_nil _

namespace Stages

variable (st : s.Stages p)

/-- The names of a program are defined as the last definitions in the source say. -/
theorem defined_labels : st.labels.definition? = s.definition? ∧ st.labels.variableNames = [] := by
  have hbind := st.bindLabels_eq
  rw [← st.layout_eq] at hbind
  exact defined_of_bindLabels st.defineAliases_eq hbind

include st in
/-- A name is defined to be the address of the word after its last label, if it has one. -/
theorem definition?_of_isLastLabel {i : Nat} {d name : Token} (h : s.IsLastLabel i d name) :
    s.definition? name.text = some (.number (Int32.ofNat (emitted (s.body.take i)))) := by
  have hpieces := st.pieces_of_isLabel h.getElem?_eq h.isLabel h.getElem?_succ_eq
  have hlater : ∀ line, ⟨.label name.text, line⟩ ∉ Piece.ofTokens (s.body.drop (i + 2)) := by
    intro line hm
    obtain ⟨j, d', other, hd, hl, ho, htext⟩ := Piece.exists_tokens_of_label hm
    rw [List.getElem?_drop] at hd ho
    exact h.last (i + 2 + j) d' other (by omega) hd hl ho htext
  rw [definition?, definitions, hpieces, Piece.labels_append, List.reverse_append,
    List.reverse_append, List.lookup_append, List.lookup_append, Piece.labels,
    lookup_reverse_cons, Piece.lookup_labels hlater, if_pos rfl, Layout.emitted_eq_widthOf,
    Nat.zero_add]
  rfl

theorem definition?_symbols : st.symbols.definition? = s.definition? := by
  rw [← st.defined_labels.1]
  funext name
  exact (SymbolTable.write_forall₂ st.unreserved_labels st.write_eq).1.definition?_eq

theorem slotTexts_finished :
    SymbolTable.slotTexts st.finished.slots = Piece.operandTexts s.pieces := by
  have hterminate := st.terminate_eq
  rw [← st.layout_eq] at hterminate
  exact slotTexts_of_terminate hterminate

/-- The variables of a program are those that its operands need. -/
theorem variableNames_symbols : st.symbols.variableNames = s.variableNames := by
  obtain ⟨hdefinition, hempty⟩ := st.defined_labels
  have hnone : st.labels.variableNames = ([] : List String).eraseDups := hempty
  rw [SymbolTable.variableNames_write st.unreserved_labels st.write_eq hnone, hdefinition,
    st.slotTexts_finished]
  rfl

theorem length_variableNames_symbols_le :
    st.symbols.variableNames.length ≤ SymbolTable.variableCap := by
  refine SymbolTable.length_variableNames_write st.write_eq ?_
  rw [st.defined_labels.2]
  exact Nat.zero_le _

include st in
theorem length_variableNames_le : s.variableNames.length ≤ SymbolTable.variableCap := by
  rw [← st.variableNames_symbols]
  exact st.length_variableNames_symbols_le

theorem addressOf?_symbols : st.symbols.addressOf? = s.address? := by
  funext name
  rw [SymbolTable.addressOf?_eq_map st.length_variableNames_symbols_le, st.variableNames_symbols,
    address?]

/-- What is known of an operand when all words are written is what the rule says. -/
theorem value?_symbols (text : String) : st.symbols.value? text = s.word? text := by
  rw [SymbolTable.value?_eq, st.definition?_symbols, st.addressOf?_symbols, word?, referent]

end Stages

/-- Variables have addresses one after the other. -/
theorem address?_eq_some_iff {name : String} {w : Word} :
    s.address? name = some w ↔
      ∃ index, s.variableNames[index]? = some name ∧ SymbolTable.variableAddress index = w := by
  rw [address?, Option.map_eq_some_iff]
  refine exists_congr fun index => and_congr_left fun _ => ?_
  rw [List.idxOf?_eq_some_iff, List.getElem?_eq_some_iff]
  refine ⟨fun ⟨hlt, heq, _⟩ => ⟨hlt, heq⟩, fun ⟨hlt, heq⟩ => ⟨hlt, heq, fun j hj hne => ?_⟩⟩
  -- A name is one variable only.
  exact Nat.ne_of_lt hj ((nodup_eraseDups _).getElem_inj_iff.1 (hne.trans heq.symm))

end Source

theorem SymbolTable.toInt_variableAddress {index : Nat} (h : index < variableCap) :
    (variableAddress index).toInt = 3000 + index := by
  have hlt : index < 1000 := h
  refine (Int32.toInt_ofNat_of_lt ?_).trans ?_
  · show 3000 + index < 2 ^ 31
    omega
  · show ((3000 + index : Nat) : Int) = 3000 + index
    omega

/-- The operands of a program are the words that the rule says, wherever they stand. It has as
    many variables as its operands need, at addresses one after the other from 3000 on, so
    that no two of them have the same. -/
theorem operands_as_resolved {s : Source} {p : Program} (h : s.assemble = .ok p) :
    (∀ i t, s.IsOperand i t → ∃ w, p.words[emitted (s.body.take i)]? = some w ∧
      s.word? t.operandText = some w) ∧
    (∀ i j t u, s.IsOperand i t → s.IsOperand j u → t.operandText = u.operandText →
      p.words[emitted (s.body.take i)]? = p.words[emitted (s.body.take j)]?) ∧
    (∀ i d name, s.IsLastLabel i d name → ∃ w, s.definition? name.text = some (.number w) ∧
      w.toInt = emitted (s.body.take i)) ∧
    p.variableCount = s.variableNames.length ∧
    (∀ (index : Nat) name, s.variableNames[index]? = some name →
      ∃ w, s.address? name = some w ∧ w.toInt = 3000 + index ∧ w.toInt < 4000) ∧
    ∀ name other w, s.address? name = some w → s.address? other = some w → name = other := by
  obtain ⟨st⟩ := Source.nonempty_stages_iff.1 h
  have hword : ∀ i t, s.IsOperand i t →
      p.words[emitted (s.body.take i)]? = s.word? t.operandText := by
    intro i t hi
    rw [Layout.emitted_eq_widthOf, st.word_of_operand hi.pieces_eq, st.value?_symbols]
  have hlt : ∀ {index : Nat} {name}, s.variableNames[index]? = some name →
      index < SymbolTable.variableCap := fun hi =>
    Nat.lt_of_lt_of_le (List.getElem?_eq_some_iff.1 hi).1 st.length_variableNames_le
  refine ⟨fun i t hi => ?_, fun i j t u hi hj htext => ?_, fun i d name hl => ?_, ?_,
    fun index name hi => ?_, fun name other w hn ho => ?_⟩
  · obtain ⟨w, hw⟩ := st.exists_word hi.pieces_eq rfl
    rw [← Layout.emitted_eq_widthOf] at hw
    exact ⟨w, hw, (hword i t hi).symm.trans hw⟩
  · rw [hword i t hi, hword j u hj, htext]
  · have hsize := st.widthOf_le_size
      (st.pieces_of_isLabel hl.getElem?_eq hl.isLabel hl.getElem?_succ_eq)
    rw [← Layout.emitted_eq_widthOf] at hsize
    exact ⟨_, st.definition?_of_isLastLabel hl,
      toInt_ofNat_of_le_cap (Nat.le_trans hsize st.size_le)⟩
  · rw [← st.variableCount_eq, st.variableNames_symbols]
  · refine ⟨_, Source.address?_eq_some_iff.2 ⟨index, hi, rfl⟩, ?_⟩
    have hcap : index < 1000 := hlt hi
    rw [SymbolTable.toInt_variableAddress (hlt hi)]
    omega
  · obtain ⟨i, hi, rfl⟩ := Source.address?_eq_some_iff.1 hn
    obtain ⟨j, hj, haddress⟩ := Source.address?_eq_some_iff.1 ho
    have hi' := SymbolTable.toInt_variableAddress (hlt hi)
    rw [← haddress, SymbolTable.toInt_variableAddress (hlt hj)] at hi'
    obtain rfl : i = j := by omega
    exact Option.some.inj (hi.symm.trans hj)

/-- A source with an alias of an alias, an alias of itself, and an alias of a name that is
    both an alias and a label. -/
def Source.resolving : Source where
  tokens := #[⟨"ALIAS", 1⟩, ⟨"a", 1⟩, ⟨"b", 1⟩, ⟨"ALIAS", 2⟩, ⟨"b", 2⟩, ⟨"c", 2⟩, ⟨"ALIAS", 3⟩,
    ⟨"d", 3⟩, ⟨"d", 3⟩, ⟨"ALIAS", 4⟩, ⟨"e", 4⟩, ⟨"7", 4⟩, ⟨"ALIAS", 5⟩, ⟨"e", 5⟩, ⟨"f", 5⟩,
    ⟨"ALIAS", 6⟩, ⟨"f", 6⟩, ⟨"9", 6⟩, ⟨"PUSH", 7⟩, ⟨"a", 7⟩, ⟨"PUSH", 7⟩, ⟨"#d", 7⟩, ⟨"PUSH", 7⟩,
    ⟨"#e", 7⟩, ⟨"LABEL", 7⟩, ⟨"f", 7⟩, ⟨"ADD", 7⟩, ⟨"c", 7⟩, ⟨"b", 7⟩, ⟨"#f", 7⟩, ⟨"#UP", 7⟩]
  lineCount := 7

/-- The program that the source with these aliases becomes. -/
def Program.resolving : Program where
  cells := [⟨536870917, 7⟩, ⟨3000, 7⟩, ⟨805306373, 7⟩, ⟨3001, 7⟩, ⟨805306373, 7⟩, ⟨6, 7⟩,
    ⟨-2046820351, 7⟩, ⟨3002, 7⟩, ⟨3002, 7⟩, ⟨6, 7⟩, ⟨1, 7⟩, ⟨0, 8⟩]
  variableCount := 3

theorem operands_as_resolved_aliases :
    Source.resolving.assemble = .ok Program.resolving ∧
      Source.resolving.variableNames = ["b", "d", "c"] ∧
      Source.resolving.IsOperand 5 ⟨"#e", 7⟩ ∧
      Source.resolving.referent "e" = .word 6 ∧
      ∃ w, Program.resolving.words[emitted (Source.resolving.body.take 5)]? = some w ∧
        Source.resolving.word? "e" = some w := by
  have hassemble : Source.resolving.assemble = .ok Program.resolving := by decide +kernel
  have hoperand : Source.resolving.IsOperand 5 ⟨"#e", 7⟩ := by
    refine ⟨rfl, by decide, by decide, fun j d hj hd => ?_⟩
    obtain rfl : j = 4 := by omega
    obtain rfl : ⟨"PUSH", 7⟩ = d := Option.some.inj hd
    decide
  exact ⟨hassemble, by decide +kernel, hoperand, by decide +kernel,
    (operands_as_resolved hassemble).1 5 _ hoperand⟩

end GridBots
