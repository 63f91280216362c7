import GridBots.Proofs.Directives

/-!
# Sources that resemble each other

Two sources may differ in the spelling of names and in their lines, and still be the same
program. A `Resemblance` says which names, and which lines, are taken for each other. Names that
are have the same meaning to the assembler if they have one without being defined; and names
that have none are the same on one side exactly if they are on the other.

Each stage of assembly takes what resembles to what resembles: tables, pieces, layouts and
words. So two sources whose tokens resemble each other become programs with the same words,
or have the same fault (`Resemblance.assemble`). The word that begins an alias at the beginning
may be spelled differently whatever the resemblance is, and only there.
-/

namespace GridBots

/-- Two results are related: both are values, or both are errors, and these are related. -/
inductive ResultRel {ε α β : Type} (E : ε → ε → Prop) (Q : α → β → Prop) :
    Except ε α → Except ε β → Prop
  | ok {a : α} {b : β} : Q a b → ResultRel E Q (.ok a) (.ok b)
  | error {e e' : ε} : E e e' → ResultRel E Q (.error e) (.error e')

theorem ResultRel.bind {ε α β γ δ : Type} {E : ε → ε → Prop} {Q : α → β → Prop} {P : γ → δ → Prop}
    {x : Except ε α} {y : Except ε β} {f : α → Except ε γ} {g : β → Except ε δ}
    (h : ResultRel E Q x y) (hf : ∀ a b, Q a b → ResultRel E P (f a) (g b)) :
    ResultRel E P (x >>= f) (y >>= g) := by
  cases h with
  | ok h => exact hf _ _ h
  | error h => exact .error h

theorem ResultRel.imp {ε α β : Type} {E E' : ε → ε → Prop} {Q Q' : α → β → Prop}
    {x : Except ε α} {y : Except ε β} (h : ResultRel E Q x y) (hE : ∀ e e', E e e' → E' e e')
    (hQ : ∀ a b, Q a b → Q' a b) : ResultRel E' Q' x y := by
  cases h with
  | ok h => exact .ok (hQ _ _ h)
  | error h => exact .error (hE _ _ h)

theorem ResultRel.refl {ε α : Type} (x : Except ε α) : ResultRel Eq Eq x x := by
  cases x with
  | ok a => exact .ok rfl
  | error e => exact .error rfl

/-- What is related to a value is a value. -/
theorem ResultRel.exists_ok {ε α β : Type} {E : ε → ε → Prop} {Q : α → β → Prop} {a : α}
    {y : Except ε β} (h : ResultRel E Q (.ok a) y) : ∃ b, y = .ok b ∧ Q a b := by
  cases h with
  | ok h => exact ⟨_, rfl, h⟩

/-- Two optional values that are related are both missing, or both there. -/
theorem eq_none_or_eq_some_of_rel {α β : Type} {Q : α → β → Prop} {x : Option α} {y : Option β}
    (h : Option.Rel Q x y) :
    x = none ∧ y = none ∨ ∃ a b, x = some a ∧ y = some b ∧ Q a b := by
  cases h with
  | none => exact .inl ⟨rfl, rfl⟩
  | some h => exact .inr ⟨_, _, rfl, rfl, h⟩

/-- Which names and lines of two sources are taken for each other. -/
structure Resemblance where
  name : String → String → Prop
  line : Nat → Nat → Prop
  parse?_eq : ∀ {a b}, name a b → Numeral.parse? a = Numeral.parse? b
  ofMnemonic?_eq : ∀ {a b}, name a b → Opcode.ofMnemonic? a = Opcode.ofMnemonic? b
  builtin?_eq : ∀ {a b}, name a b → SymbolTable.builtin? a = SymbolTable.builtin? b
  isAliasText_eq : ∀ {a b}, name a b → Token.isAliasText a = Token.isAliasText b
  blockOpen_iff : ∀ {a b}, name a b → (a = Token.blockOpen ↔ b = Token.blockOpen)
  blockClose_iff : ∀ {a b}, name a b → (a = Token.blockClose ↔ b = Token.blockClose)
  /-- Names that are not built in are told apart alike. -/
  eq_iff : ∀ {a b a' b'}, name a b → name a' b' → SymbolTable.builtin? a = none →
    SymbolTable.builtin? a' = none → (a = a' ↔ b = b')
  lineAfter : ∀ {m n}, line m n → line (lineAfter m) (lineAfter n)

namespace Resemblance

variable (R : Resemblance)

/-! ## What resembles -/

/-- Errors with the same fault. -/
structure Errors (e e' : AssemblyError) : Prop where
  fault_eq : e.fault = e'.fault
  line : R.line e.line e'.line

structure Tokens (t t' : Token) : Prop where
  line : R.line t.line t'.line
  isImmediate_eq : t.isImmediate = t'.isImmediate
  operandText : R.name t.operandText t'.operandText

inductive Items : Item → Item → Prop
  | opening : Items .opening .opening
  | closing : Items .closing .closing
  | label {a b : String} : R.name a b → Items (.label a) (.label b)
  | namelessLabel : Items .namelessLabel .namelessLabel
  | operation (op : Opcode) : Items (.operation op) (.operation op)
  | operand {a b : String} (immediate : Bool) :
      R.name a b → Items (.operand a immediate) (.operand b immediate)

structure Pieces (p p' : Piece) : Prop where
  item : R.Items p.item p'.item
  line : R.line p.line p'.line

inductive Slots : Slot → Slot → Prop
  | instruction (h : Header) : Slots (.instruction h) (.instruction h)
  | operand {a b : String} : R.name a b → Slots (.operand a) (.operand b)
  | skip (width : Nat) : Slots (.skip width) (.skip width)

inductive Places : Placed → Placed → Prop
  | slot {s s' : Slot} {m n : Nat} : R.Slots s s' → R.line m n → Places (.slot s m) (.slot s' n)
  | label {a b : String} {m n : Nat} :
      R.name a b → R.line m n → Places (.label a m) (.label b n)

inductive Symbols : Symbol → Symbol → Prop
  | number (w : Word) : Symbols (.number w) (.number w)
  | name {a b : String} : R.name a b → Symbols (.name a) (.name b)

structure Entries (e e' : String × Symbol) : Prop where
  name : R.name e.1 e'.1
  builtin?_eq : SymbolTable.builtin? e.1 = none
  symbol : R.Symbols e.2 e'.2

structure Variables (a b : String) : Prop where
  name : R.name a b
  builtin?_eq : SymbolTable.builtin? a = none

structure Tables (t t' : SymbolTable) : Prop where
  entries : List.Forall₂ R.Entries t.entries t'.entries
  variableNames : List.Forall₂ R.Variables t.variableNames t'.variableNames

structure Cells (c c' : Cell) : Prop where
  word_eq : c.word = c'.word
  line : R.line c.line c'.line

structure Programs (p p' : Program) : Prop where
  cells : List.Forall₂ R.Cells p.cells p'.cells
  variableCount_eq : p.variableCount = p'.variableCount

variable {R}

/-- Sequences of tokens resemble each other if each token does, or both begin an alias at the
    beginning. -/
structure Sources (R : Resemblance) (tokens tokens' : List Token) : Prop where
  length_eq : tokens.length = tokens'.length
  getElem? : ∀ i t t', tokens[i]? = some t → tokens'[i]? = some t' →
    R.Tokens t t' ∨ R.line t.line t'.line ∧ ∃ k, i = 3 * k ∧
      Token.IsDirective (tokens.map Token.text) k ∧ Token.IsDirective (tokens'.map Token.text) k

/-! ## Names -/

theorem isReserved_eq {a b : String} (h : R.name a b) :
    SymbolTable.isReserved a = SymbolTable.isReserved b := by
  rw [SymbolTable.isReserved, R.isAliasText_eq h, R.builtin?_eq h, SymbolTable.isReserved]

theorem beq_eq {a b a' b' : String} (h : R.name a b) (h' : R.name a' b')
    (hb : SymbolTable.builtin? a' = none) : (a == a') = (b == b') := by
  rw [Bool.eq_iff_iff, beq_iff_eq, beq_iff_eq]
  cases ha : SymbolTable.builtin? a with
  | none => exact R.eq_iff h h' ha hb
  | some w =>
    -- A built-in name is none that is not built in, on either side.
    have hw := R.builtin?_eq h
    have hw' := R.builtin?_eq h'
    rw [ha] at hw
    rw [hb] at hw'
    constructor
    · rintro rfl
      rw [ha] at hb
      cases hb
    · rintro rfl
      rw [← hw] at hw'
      cases hw'

/-! ## Tokens -/

section Tokens

variable {t t' : Token}

theorem Tokens.name_text (h : R.Tokens t t') (hi : t.isImmediate = false) :
    R.name t.text t'.text := by
  have hn := h.operandText
  rwa [Token.operandText, Token.operandText, ← h.isImmediate_eq, hi, if_neg Bool.false_ne_true,
    if_neg Bool.false_ne_true] at hn

/-- Of a token that is marked as immediate, and of the one that resembles it, it is known what
    they are not. -/
theorem Tokens.not_reserved (h : R.Tokens t t') (hi : t.isImmediate = true) :
    (Opcode.ofMnemonic? t.text = none ∧ t.text ≠ Token.blockOpen ∧ t.text ≠ Token.blockClose) ∧
      Opcode.ofMnemonic? t'.text = none ∧ t'.text ≠ Token.blockOpen ∧
        t'.text ≠ Token.blockClose :=
  ⟨Piece.not_reserved_of_isImmediate hi,
    Piece.not_reserved_of_isImmediate (h.isImmediate_eq ▸ hi)⟩

theorem Tokens.ofMnemonic?_eq (h : R.Tokens t t') :
    Opcode.ofMnemonic? t.text = Opcode.ofMnemonic? t'.text := by
  cases hi : t.isImmediate with
  | false => exact R.ofMnemonic?_eq (h.name_text hi)
  | true => rw [(h.not_reserved hi).1.1, (h.not_reserved hi).2.1]

theorem Tokens.isLabel_eq (h : R.Tokens t t') : t.isLabel = t'.isLabel := by
  rw [Token.isLabel, Token.isLabel, h.ofMnemonic?_eq]

theorem Tokens.blockOpen_iff (h : R.Tokens t t') :
    t.text = Token.blockOpen ↔ t'.text = Token.blockOpen := by
  cases hi : t.isImmediate with
  | false => exact R.blockOpen_iff (h.name_text hi)
  | true => exact iff_of_false (h.not_reserved hi).1.2.1 (h.not_reserved hi).2.2.1

theorem Tokens.blockClose_iff (h : R.Tokens t t') :
    t.text = Token.blockClose ↔ t'.text = Token.blockClose := by
  cases hi : t.isImmediate with
  | false => exact R.blockClose_iff (h.name_text hi)
  | true => exact iff_of_false (h.not_reserved hi).1.2.2 (h.not_reserved hi).2.2.2

theorem not_isAlias_of_isImmediate (hi : t.isImmediate = true) : t.isAlias = false := by
  have hupper := Text.head?_upperCase (of_decide_eq_true hi)
  rw [Token.isAlias, Token.isAliasText]
  refine decide_eq_false fun ha => ?_
  rw [ha] at hupper
  exact absurd hupper (by decide)

theorem Tokens.isAlias_eq (h : R.Tokens t t') : t.isAlias = t'.isAlias := by
  cases hi : t.isImmediate with
  | false => exact R.isAliasText_eq (h.name_text hi)
  | true =>
    rw [not_isAlias_of_isImmediate hi, not_isAlias_of_isImmediate (h.isImmediate_eq ▸ hi)]

theorem Tokens.canBeValue_eq (h : R.Tokens t t') : t.canBeValue = t'.canBeValue := by
  have himmediate := h.isImmediate_eq
  rw [Token.isImmediate, Token.isImmediate, decide_eq_decide] at himmediate
  rw [Token.canBeValue, Token.canBeValue, decide_eq_decide]
  exact and_congr (not_congr himmediate)
    (and_congr (not_congr h.blockOpen_iff) (not_congr h.blockClose_iff))

theorem isImmediate_of_canBeValue (hv : t.canBeValue = true) : t.isImmediate = false := by
  rw [Token.canBeValue, decide_eq_true_eq] at hv
  exact decide_eq_false hv.1

theorem isImmediate_of_canBeName (hn : t.canBeName = true) : t.isImmediate = false := by
  rw [Token.canBeName, decide_eq_true_eq] at hn
  exact isImmediate_of_canBeValue hn.1

theorem Tokens.canBeName_eq (h : R.Tokens t t') : t.canBeName = t'.canBeName := by
  rw [Token.canBeName, Token.canBeName, decide_eq_decide, h.canBeValue_eq]
  refine and_congr_right fun hv => ?_
  rw [R.parse?_eq (h.name_text (isImmediate_of_canBeValue (h.canBeValue_eq.trans hv)))]

theorem Tokens.symbols_ofText (h : R.Tokens t t') (hi : t.isImmediate = false) :
    R.Symbols (Symbol.ofText t.text) (Symbol.ofText t'.text) := by
  have hn := h.name_text hi
  rw [Symbol.ofText, Symbol.ofText, ← R.parse?_eq hn]
  cases Numeral.parse? t.text with
  | none => exact .name hn
  | some w => exact .number w

theorem Tokens.ofToken (h : R.Tokens t t') : R.Pieces (Piece.ofToken t) (Piece.ofToken t') := by
  refine ⟨?_, ?_⟩
  · rcases Piece.ofToken_cases t with ⟨ho, hp⟩ | ⟨hc, hp⟩ | ⟨ho, hc, ⟨op, hm, hp⟩ | ⟨hm, hp⟩⟩ <;>
      rw [hp]
    · rw [Piece.ofToken_blockOpen (h.blockOpen_iff.1 ho)]
      exact .opening
    · rw [Piece.ofToken_blockClose (h.blockClose_iff.1 hc)]
      exact .closing
    · rw [Piece.ofToken_operation (h.ofMnemonic?_eq.symm.trans hm)]
      exact .operation op
    · rw [Piece.ofToken_operand (h.ofMnemonic?_eq.symm.trans hm) (mt h.blockOpen_iff.2 ho)
        (mt h.blockClose_iff.2 hc), ← h.isImmediate_eq]
      exact .operand _ h.operandText
  · rcases Piece.ofToken_cases t with ⟨ho, hp⟩ | ⟨hc, hp⟩ | ⟨ho, hc, ⟨op, hm, hp⟩ | ⟨hm, hp⟩⟩ <;>
      rcases Piece.ofToken_cases t' with ⟨_, hp'⟩ | ⟨_, hp'⟩ | ⟨_, _, ⟨_, _, hp'⟩ | ⟨_, hp'⟩⟩ <;>
        rw [hp, hp'] <;> exact h.line

end Tokens

theorem pieces_ofTokens {tokens tokens' : List Token} (h : List.Forall₂ R.Tokens tokens tokens') :
    List.Forall₂ R.Pieces (Piece.ofTokens tokens) (Piece.ofTokens tokens') := by
  induction tokens using Piece.ofTokens.induct generalizing tokens' with
  | case1 => cases h; exact .nil
  | case2 t ht =>
    cases h with | cons h₁ h =>
    cases h
    rw [Piece.ofTokens, if_pos ht, Piece.ofTokens.eq_def]
    simp only [if_pos (h₁.isLabel_eq ▸ ht)]
    exact .cons ⟨.namelessLabel, h₁.line⟩ .nil
  | case3 t ht name rest hn ih =>
    cases h with | cons h₁ h =>
    cases h with | cons h₂ h =>
    have hi := isImmediate_of_canBeName hn
    rw [Piece.ofTokens_label ht hn,
      Piece.ofTokens_label (h₁.isLabel_eq ▸ ht) (h₂.canBeName_eq ▸ hn)]
    exact .cons ⟨.label (h₂.name_text hi), h₁.line⟩ (ih h)
  | case4 t ht name rest hn ih =>
    cases h with | cons h₁ h =>
    have h' := h
    cases h' with | cons h₂ h' =>
    rw [Piece.ofTokens_namelessLabel ht hn,
      Piece.ofTokens_namelessLabel (h₁.isLabel_eq ▸ ht) (h₂.canBeName_eq ▸ hn)]
    exact .cons ⟨.namelessLabel, h₁.line⟩ (ih h)
  | case5 t rest ht ih =>
    cases h with | cons h₁ h =>
    rw [Piece.ofTokens_cons ht, Piece.ofTokens_cons (h₁.isLabel_eq ▸ ht)]
    exact .cons h₁.ofToken (ih h)

/-! ## Tables -/

section Tables

variable {t t' : SymbolTable} {a b : String}

theorem atLine {α β : Type} {Q : α → β → Prop} {m n : Nat} {x : Except Fault α}
    {y : Except Fault β} (hl : R.line m n) (h : ResultRel Eq Q x y) :
    ResultRel R.Errors Q (GridBots.atLine m x) (GridBots.atLine n y) := by
  cases h with
  | ok h => exact .ok h
  | error h => exact .error ⟨h, hl⟩

theorem tables_empty : R.Tables .empty .empty :=
  ⟨.nil, .nil⟩

theorem lookup_entries {entries entries' : List (String × Symbol)}
    (h : List.Forall₂ R.Entries entries entries') (hn : R.name a b) :
    Option.Rel R.Symbols (entries.lookup a) (entries'.lookup b) := by
  induction h with
  | nil => exact .none
  | @cons e e' entries entries' he _ ih =>
    obtain ⟨key, value⟩ := e
    obtain ⟨key', value'⟩ := e'
    rw [List.lookup_cons, List.lookup_cons, R.beq_eq hn he.name he.builtin?_eq]
    cases b == key' with
    | true => exact .some he.symbol
    | false => exact ih

theorem Tables.definition? (h : R.Tables t t') (hn : R.name a b) :
    Option.Rel R.Symbols (t.definition? a) (t'.definition? b) :=
  lookup_entries h.entries hn

theorem builtin?_eq_none_of_isReserved (h : SymbolTable.isReserved a = false) :
    SymbolTable.builtin? a = none := by
  rw [SymbolTable.isReserved, Bool.or_eq_false_iff] at h
  exact Option.isSome_eq_false_iff.1 h.2 |> Option.isNone_iff_eq_none.1

theorem Tables.define {v v' : Symbol} (h : R.Tables t t') (hn : R.name a b)
    (hv : R.Symbols v v') : ResultRel Eq R.Tables (t.define a v) (t'.define b v') := by
  have hd : (t.definition? a).isNone = (t'.definition? b).isNone := by
    rcases eq_none_or_eq_some_of_rel (h.definition? hn) with ⟨h₁, h₂⟩ | ⟨_, _, h₁, h₂, _⟩
    · rw [h₁, h₂]
    · rw [h₁, h₂, Option.isNone_some, Option.isNone_some]
  rw [SymbolTable.define, SymbolTable.define, ← isReserved_eq hn, ← hd, ← h.entries.length_eq]
  split
  · exact .error rfl
  next hr =>
  split
  · exact .error rfl
  have hb := builtin?_eq_none_of_isReserved (Bool.eq_false_iff.2 hr)
  refine .ok ⟨.cons ⟨hn, hb, hv⟩ (List.rel_filter (fun e e' he => ?_) h.entries), h.variableNames⟩
  change decide (e.1 ≠ a) = true ↔ decide (e'.1 ≠ b) = true
  rw [decide_eq_true_eq, decide_eq_true_eq]
  exact not_congr (R.eq_iff he.name hn he.builtin?_eq hb)

theorem Tables.addressOf?_eq (h : R.Tables t t') (hn : R.name a b) :
    t.addressOf? a = t'.addressOf? b := by
  have hi : ∀ {names names' : List String}, List.Forall₂ R.Variables names names' →
      names.idxOf? a = names'.idxOf? b := by
    intro names names' hv
    induction hv with
    | nil => rfl
    | @cons v v' names names' hv _ ih =>
      have he : (v == a) = (v' == b) := by
        rw [BEq.comm, R.beq_eq hn hv.name hv.builtin?_eq, BEq.comm]
      rw [List.idxOf?_cons, List.idxOf?_cons, he, ih]
  rw [SymbolTable.addressOf?, SymbolTable.addressOf?, hi h.variableNames]

theorem Tables.number?_eq (h : R.Tables t t') (hn : R.name a b) : t.number? a = t'.number? b := by
  rw [SymbolTable.number?, SymbolTable.number?]
  rcases eq_none_or_eq_some_of_rel (h.definition? hn) with ⟨h₁, h₂⟩ | ⟨_, _, h₁, h₂, hs⟩ <;>
    rw [h₁, h₂]
  cases hs <;> rfl

theorem Tables.lookupTarget?_eq (h : R.Tables t t') (hn : R.name a b) :
    t.lookupTarget? a = t'.lookupTarget? b := by
  rw [SymbolTable.lookupTarget?, SymbolTable.lookupTarget?, R.builtin?_eq hn, h.number?_eq hn,
    h.addressOf?_eq hn]

/-- A word is the same in both programs, and the tables resemble each other. -/
structure Used (R : Resemblance) (x x' : Word × SymbolTable) : Prop where
  word_eq : x.1 = x'.1
  tables : R.Tables x.2 x'.2

theorem Tables.settle (h : R.Tables t t') (hn : R.name a b) :
    ResultRel Eq R.Used (t.settle a) (t'.settle b) := by
  rw [SymbolTable.settle, SymbolTable.settle, ← h.lookupTarget?_eq hn, ← h.variableNames.length_eq]
  cases hs : t.lookupTarget? a with
  | some w => exact .ok ⟨rfl, h⟩
  | none =>
    have hb : SymbolTable.builtin? a = none := by
      rw [SymbolTable.lookupTarget?, Option.orElse_eq_orElse, Option.orElse_eq_or,
        Option.or_eq_none_iff] at hs
      exact hs.1
    dsimp only
    split
    · exact .ok ⟨rfl, h.entries, List.rel_append h.variableNames (.cons ⟨hn, hb⟩ .nil)⟩
    · exact .error rfl

theorem Tables.resolve (h : R.Tables t t') (hn : R.name a b) :
    ResultRel Eq R.Used (t.resolve a) (t'.resolve b) := by
  rw [SymbolTable.resolve_eq_settle, SymbolTable.resolve_eq_settle]
  rcases eq_none_or_eq_some_of_rel (h.definition? hn) with ⟨h₁, h₂⟩ | ⟨_, _, h₁, h₂, hs⟩ <;>
    rw [h₁, h₂]
  · exact h.settle hn
  · cases hs with
    | number w => exact .ok ⟨rfl, h⟩
    | name htarget => exact h.settle htarget

theorem Tables.word {s s' : Slot} (h : R.Tables t t') (hs : R.Slots s s') :
    ResultRel Eq R.Used (t.word s) (t'.word s') := by
  cases hs with
  | instruction header => exact .ok ⟨rfl, h⟩
  | skip width =>
    rw [SymbolTable.word, SymbolTable.word]
    exact (ResultRel.refl (Layout.countWord width)).bind fun w w' hw => .ok ⟨hw, h⟩
  | @operand text text' hn =>
    rw [SymbolTable.word, SymbolTable.word, SymbolTable.operand, SymbolTable.operand,
      ← R.parse?_eq hn]
    cases Numeral.parse? text with
    | some w => exact .ok ⟨rfl, h⟩
    | none => exact h.resolve hn

end Tables

/-! ## Aliases -/

section Aliases

variable {d d' name name' value value' : Token} {rest rest' : List Token}

theorem Sources.isAlias_eq (h : R.Sources (d :: rest) (d' :: rest')) : d.isAlias = d'.isAlias := by
  rcases h.getElem? 0 d d' rfl rfl with ht | ⟨_, k, _, hk, hk'⟩
  · exact ht.isAlias_eq
  · exact (Token.isAliasText_of_isDirective hk).trans (Token.isAliasText_of_isDirective hk').symm

theorem Sources.line (h : R.Sources (d :: rest) (d' :: rest')) : R.line d.line d'.line :=
  (h.getElem? 0 d d' rfl rfl).elim Tokens.line And.left

/-- Without an alias at the beginning, all tokens resemble each other. -/
theorem Sources.forall₂_tokens (h : R.Sources (d :: rest) (d' :: rest'))
    (hd : ¬d.isAlias = true) : List.Forall₂ R.Tokens (d :: rest) (d' :: rest') := by
  refine List.forall₂_iff_get.2 ⟨h.length_eq, fun i hi hi' => ?_⟩
  refine (h.getElem? i _ _ (List.getElem?_eq_getElem hi) (List.getElem?_eq_getElem hi')).resolve_right
    fun ⟨_, k, _, hk, _⟩ => hd (Token.isAliasText_of_isDirective hk)

theorem Sources.exists_alias {tokens' : List Token}
    (h : R.Sources (d :: name :: value :: rest) tokens') :
    ∃ d' name' value' rest', tokens' = d' :: name' :: value' :: rest' := by
  obtain _ | ⟨d', _ | ⟨name', _ | ⟨value', rest'⟩⟩⟩ := tokens'
  · simpa using h.length_eq
  · simpa using h.length_eq
  · simpa using h.length_eq
  · exact ⟨d', name', value', rest', rfl⟩

theorem Sources.afterAlias
    (h : R.Sources (d :: name :: value :: rest) (d' :: name' :: value' :: rest')) :
    R.Tokens name name' ∧ R.Tokens value value' ∧ R.Sources rest rest' := by
  refine ⟨?_, ?_, Nat.add_right_cancel (m := 3) h.length_eq, fun i t t' hi hi' => ?_⟩
  · refine (h.getElem? 1 _ _ rfl rfl).resolve_right fun ⟨_, k, hk, _⟩ => ?_
    omega
  · refine (h.getElem? 2 _ _ rfl rfl).resolve_right fun ⟨_, k, hk, _⟩ => ?_
    omega
  · refine (h.getElem? (i + 3) t t' hi hi').imp_right fun ⟨hl, k, hk, hd, hd'⟩ => ⟨hl, ?_⟩
    cases k with
    | zero => omega
    | succ k =>
      exact ⟨k, by omega, (Token.isDirective_succ.1 hd).2, (Token.isDirective_succ.1 hd').2⟩

/-- Both tables after the aliases, and both bodies, resemble each other. -/
theorem Sources.defineAliases {tokens tokens' : List Token} {t t' : SymbolTable}
    (h : R.Sources tokens tokens') (ht : R.Tables t t') :
    ResultRel R.Errors (fun x x' => R.Tables x.1 x'.1 ∧ List.Forall₂ R.Tokens x.2 x'.2)
      (t.defineAliases tokens) (t'.defineAliases tokens') := by
  induction t, tokens using SymbolTable.defineAliases.induct generalizing t' tokens' with
  | case1 t =>
    obtain rfl := List.length_eq_zero_iff.1 h.length_eq.symm
    exact .ok ⟨ht, .nil⟩
  | case2 t d hd name value rest hn ih =>
    obtain ⟨d', name', value', rest', rfl⟩ := h.exists_alias
    obtain ⟨hname, hvalue, hrest⟩ := h.afterAlias
    have hn' : name'.canBeName = true ∧ value'.canBeValue = true := by
      rwa [← hname.canBeName_eq, ← hvalue.canBeValue_eq]
    rw [SymbolTable.defineAliases, if_pos hd, if_pos hn, SymbolTable.defineAliases,
      if_pos (h.isAlias_eq ▸ hd), if_pos hn']
    have hname' := hname.name_text (isImmediate_of_canBeName hn.1)
    have hvalue' := hvalue.symbols_ofText (isImmediate_of_canBeValue hn.2)
    exact (atLine h.line (ht.define hname' hvalue')).bind fun t₁ t₁' h₁ => ih t₁ hrest h₁
  | case3 t d hd name value rest hn =>
    obtain ⟨d', name', value', rest', rfl⟩ := h.exists_alias
    obtain ⟨hname, hvalue, hrest⟩ := h.afterAlias
    have hn' : ¬(name'.canBeName = true ∧ value'.canBeValue = true) := by
      rwa [← hname.canBeName_eq, ← hvalue.canBeValue_eq]
    rw [SymbolTable.defineAliases, if_pos hd, if_neg hn, SymbolTable.defineAliases,
      if_pos (h.isAlias_eq ▸ hd), if_neg hn']
    exact .error ⟨rfl, h.line⟩
  | case4 t d rest hd hr =>
    obtain _ | ⟨d', rest'⟩ := tokens'
    · simpa using h.length_eq
    have hr' : ∀ name' value' later', rest' = name' :: value' :: later' → False := by
      rintro name' value' later' rfl
      obtain _ | ⟨name, _ | ⟨value, later⟩⟩ := rest
      · simpa using h.length_eq
      · simpa using h.length_eq
      · exact hr name value later rfl
    rw [SymbolTable.defineAliases.eq_def, SymbolTable.defineAliases.eq_def]
    simp only [hd, h.isAlias_eq ▸ hd, if_true]
    exact .error ⟨rfl, h.line⟩
  | case5 t d rest hd =>
    obtain _ | ⟨d', rest'⟩ := tokens'
    · simpa using h.length_eq
    rw [SymbolTable.defineAliases.eq_def, SymbolTable.defineAliases.eq_def]
    simp only [if_neg hd, if_neg (h.isAlias_eq ▸ hd)]
    exact .ok ⟨ht, h.forall₂_tokens hd⟩

theorem find?_isAlias {tokens tokens' : List Token} (h : List.Forall₂ R.Tokens tokens tokens') :
    Option.Rel R.Tokens (tokens.find? Token.isAlias) (tokens'.find? Token.isAlias) := by
  induction h with
  | nil => exact .none
  | @cons t t' tokens tokens' ht _ ih =>
    rw [List.find?_cons, List.find?_cons, ht.isAlias_eq]
    cases t'.isAlias with
    | true => exact .some ht
    | false => exact ih

end Aliases

/-! ## Blocks -/

section Blocks

variable {pieces pieces' : List Piece}

theorem Items.width_eq {i i' : Item} (h : R.Items i i') : i.width = i'.width := by
  cases h <;> rfl

theorem Items.tokenCount_eq {i i' : Item} (h : R.Items i i') : i.tokenCount = i'.tokenCount := by
  cases h <;> rfl

theorem Items.opening_iff {i i' : Item} (h : R.Items i i') : i = .opening ↔ i' = .opening := by
  cases h <;> simp

theorem inside (h : List.Forall₂ R.Pieces pieces pieces') (depth : Nat) :
    List.Forall₂ R.Pieces (Block.inside depth pieces) (Block.inside depth pieces') := by
  induction h generalizing depth with
  | nil => exact .nil
  | @cons p p' pieces pieces' hp _ ih =>
    obtain ⟨item, line⟩ := p
    obtain ⟨item', line'⟩ := p'
    cases hp.item with
    | opening => exact .cons hp (ih _)
    | closing =>
      cases depth with
      | zero => exact .nil
      | succ depth => exact .cons hp (ih _)
    | label _ => exact .cons hp (ih _)
    | namelessLabel => exact .cons hp (ih _)
    | operation _ => exact .cons hp (ih _)
    | operand _ _ => exact .cons hp (ih _)

theorem widthOf_eq (h : List.Forall₂ R.Pieces pieces pieces') :
    Block.widthOf pieces = Block.widthOf pieces' := by
  induction h with
  | nil => rfl
  | cons hp _ ih => rw [Block.widthOf, Block.widthOf, hp.item.width_eq, ih]

theorem tokenCount_eq (h : List.Forall₂ R.Pieces pieces pieces') :
    Block.tokenCount pieces = Block.tokenCount pieces' := by
  induction h with
  | nil => rfl
  | cons hp _ ih => rw [Block.tokenCount, Block.tokenCount, hp.item.tokenCount_eq, ih]

theorem ofPieces_eq (h : List.Forall₂ R.Pieces pieces pieces') (index : Nat) :
    Block.ofPieces index pieces = Block.ofPieces index pieces' := by
  induction h generalizing index with
  | nil => rfl
  | @cons p p' pieces pieces' hp h ih =>
    have ho : Block.openedAt index pieces = Block.openedAt index pieces' := by
      rw [Block.openedAt, Block.openedAt, tokenCount_eq (inside h 0), widthOf_eq (inside h 0)]
    rw [Block.ofPieces, Block.ofPieces, ho, hp.item.tokenCount_eq, ih, ih]
    simp only [hp.item.opening_iff]

theorem blockFault? (h : List.Forall₂ R.Pieces pieces pieces') {count : Nat}
    {unclosed unclosed' : List Nat} (hu : List.Forall₂ R.line unclosed unclosed') :
    Option.Rel R.Errors (Block.firstFault? count unclosed pieces)
      (Block.firstFault? count unclosed' pieces') := by
  induction h generalizing count unclosed unclosed' with
  | nil =>
    cases hu with
    | nil => exact .none
    | cons hl _ => exact .some ⟨rfl, hl⟩
  | @cons p p' pieces pieces' hp _ ih =>
    have hl := hp.line
    obtain ⟨item, line⟩ := p
    obtain ⟨item', line'⟩ := p'
    cases hp.item with
    | opening =>
      rw [Block.firstFault?, Block.firstFault?]
      split
      · exact .some ⟨rfl, hl⟩
      · exact ih (.cons hl hu)
    | closing =>
      cases hu with
      | nil => exact .some ⟨rfl, hl⟩
      | cons _ hu => exact ih hu
    | namelessLabel => exact .some ⟨rfl, hl⟩
    | label _ => exact ih hu
    | operation _ => exact ih hu
    | operand _ _ => exact ih hu

theorem find (h : List.Forall₂ R.Pieces pieces pieces') :
    ResultRel R.Errors Eq (Block.find pieces) (Block.find pieces') := by
  rw [Block.find_eq, Block.find_eq, ofPieces_eq h 0]
  have hf : Option.Rel R.Errors (Block.fault? pieces) (Block.fault? pieces') := blockFault? h .nil
  rcases eq_none_or_eq_some_of_rel hf with ⟨h₁, h₂⟩ | ⟨_, _, h₁, h₂, he⟩ <;> rw [h₁, h₂]
  · exact .ok rfl
  · exact .error he

end Blocks

/-! ## Layouts -/

section Layouts

variable {pieces pieces' : List Piece} {l l' : Layout}

/-- The instructions whose operands are being read in both programs. -/
structure Pendings (R : Resemblance) (p p' : Layout.Pending) : Prop where
  line : R.line p.line p'.line
  operands_eq : p.operands = p'.operands

theorem pendingFault? {p p' : Option Layout.Pending} (h : Option.Rel R.Pendings p p') :
    Option.Rel R.Errors (p.bind Layout.Pending.fault?) (p'.bind Layout.Pending.fault?) := by
  cases h with
  | none => exact .none
  | some h =>
    rw [Option.bind_some, Option.bind_some, Layout.Pending.fault?, Layout.Pending.fault?,
      h.operands_eq]
    split
    · exact .none
    · exact .some ⟨rfl, h.line⟩

theorem pendingMore {p p' : Option Layout.Pending} (h : Option.Rel R.Pendings p p') :
    Option.Rel R.Pendings (p.map Layout.Pending.more) (p'.map Layout.Pending.more) := by
  cases h with
  | none => exact .none
  | some h => exact .some ⟨h.line, congrArg Nat.succ h.operands_eq⟩

theorem rel_orElse {α β : Type} {Q : α → β → Prop} {x y : Option α} {x' y' : Option β}
    (h : Option.Rel Q x x') (h' : Option.Rel Q y y') : Option.Rel Q (x <|> y) (x' <|> y') := by
  cases h with
  | none => exact h'
  | some h => exact .some h

theorem layoutFault? (h : List.Forall₂ R.Pieces pieces pieces') {blocks room : Nat}
    {pending? pending?' : Option Layout.Pending} (hp : Option.Rel R.Pendings pending? pending?') :
    Option.Rel R.Errors (Layout.firstFault? blocks room pending? pieces)
      (Layout.firstFault? blocks room pending?' pieces') := by
  induction h generalizing blocks room pending? pending?' with
  | nil => exact .none
  | @cons p p' pieces pieces' hpiece _ ih =>
    have hl := hpiece.line
    obtain ⟨item, line⟩ := p
    obtain ⟨item', line'⟩ := p'
    cases hpiece.item with
    | opening =>
      rw [Layout.firstFault?, Layout.firstFault?]
      split
      · exact .some ⟨rfl, hl⟩
      refine rel_orElse (pendingFault? hp) ?_
      split
      · exact .some ⟨rfl, hl⟩
      · exact ih .none
    | closing => exact ih .none
    | label _ =>
      rw [Layout.firstFault?, Layout.firstFault?]
      split
      · exact .some ⟨rfl, hl⟩
      · exact ih .none
    | namelessLabel => exact .some ⟨rfl, hl⟩
    | operation _ =>
      rw [Layout.firstFault?, Layout.firstFault?]
      split
      · exact .some ⟨rfl, hl⟩
      · exact ih (.some ⟨hl, rfl⟩)
    | operand _ _ =>
      rw [Layout.firstFault?, Layout.firstFault?]
      refine rel_orElse (pendingFault? hp) ?_
      split
      · exact .some ⟨rfl, hl⟩
      · exact ih (pendingMore hp)

theorem operandFlags_eq (h : List.Forall₂ R.Pieces pieces pieces') :
    operandFlags pieces = operandFlags pieces' := by
  induction h with
  | nil => rfl
  | @cons p p' pieces pieces' hp _ ih =>
    obtain ⟨item, line⟩ := p
    obtain ⟨item', line'⟩ := p'
    cases hp.item with
    | operand immediate _ => exact congrArg (immediate :: ·) ih
    | opening => rfl
    | closing => rfl
    | label _ => rfl
    | namelessLabel => rfl
    | operation _ => rfl

theorem layout_ofPieces (h : List.Forall₂ R.Pieces pieces pieces') (widths : List Nat) :
    List.Forall₂ R.Places (Layout.ofPieces widths pieces) (Layout.ofPieces widths pieces') := by
  induction h generalizing widths with
  | nil => exact .nil
  | @cons p p' pieces pieces' hp h ih =>
    have hl := hp.line
    obtain ⟨item, line⟩ := p
    obtain ⟨item', line'⟩ := p'
    cases hp.item with
    | opening => exact .cons (.slot (.skip _) hl) (ih _)
    | closing => exact ih _
    | label hn => exact .cons (.label hn hl) (ih _)
    | namelessLabel => exact ih _
    | operation op =>
      rw [Layout.ofPieces, Layout.ofPieces, operandFlags_eq h]
      exact .cons (.slot (.instruction _) hl) (ih _)
    | operand _ hn => exact .cons (.slot (.operand hn) hl) (ih _)

theorem place (h : List.Forall₂ R.Pieces pieces pieces') (blocks : List Block) :
    ResultRel R.Errors (List.Forall₂ R.Places) (Layout.place pieces blocks)
      (Layout.place pieces' blocks) := by
  rw [Layout.place_eq, Layout.place_eq]
  have hf : Option.Rel R.Errors (Layout.fault? pieces blocks.length)
      (Layout.fault? pieces' blocks.length) := layoutFault? h .none
  rcases eq_none_or_eq_some_of_rel hf with ⟨h₁, h₂⟩ | ⟨_, _, h₁, h₂, he⟩ <;> rw [h₁, h₂]
  · exact .ok (layout_ofPieces h _)
  · exact .error he

theorem bindLabels (h : List.Forall₂ R.Places l l') {address : Nat} {t t' : SymbolTable}
    (ht : R.Tables t t') :
    ResultRel R.Errors R.Tables (l.bindLabels address t) (l'.bindLabels address t') := by
  induction h generalizing address t t' with
  | nil => exact .ok ht
  | cons hp _ ih =>
    cases hp with
    | slot _ _ => exact ih ht
    | label hn hl =>
      rw [Layout.bindLabels, Layout.bindLabels]
      refine (atLine hl (.refl (Layout.countWord address))).bind fun w w' hw => ?_
      rw [← hw]
      exact (atLine hl (ht.define hn (.number w))).bind fun _ _ ht => ih ht

/-- Words to be of both programs, with their lines. -/
structure LineSlots (R : Resemblance) (s s' : Slot × Nat) : Prop where
  slot : R.Slots s.1 s'.1
  line : R.line s.2 s'.2

theorem slots (h : List.Forall₂ R.Places l l') :
    List.Forall₂ R.LineSlots l.slots l'.slots := by
  induction h with
  | nil => exact .nil
  | cons hp _ ih =>
    cases hp with
    | slot hs hl => exact .cons ⟨hs, hl⟩ ih
    | label _ _ => exact ih

theorem getLast?_slots (h : List.Forall₂ R.Places l l') :
    Option.Rel R.LineSlots l.slots.getLast? l'.slots.getLast? := by
  have hhead : ∀ {x y : List (Slot × Nat)}, List.Forall₂ R.LineSlots x y →
      Option.Rel R.LineSlots x.head? y.head? := by
    intro x y hxy
    cases hxy with
    | nil => exact .none
    | cons hs _ => exact .some hs
  rw [List.getLast?_eq_head?_reverse, List.getLast?_eq_head?_reverse]
  exact hhead (List.rel_reverse (slots h))

theorem isTerminated_eq (h : List.Forall₂ R.Places l l') :
    l.isTerminated = l'.isTerminated := by
  rw [Layout.isTerminated, Layout.isTerminated]
  rcases eq_none_or_eq_some_of_rel (getLast?_slots h) with ⟨h₁, h₂⟩ | ⟨⟨s, m⟩, ⟨s', n⟩, h₁, h₂, hs⟩ <;>
    rw [h₁, h₂]
  have hslot : R.Slots s s' := hs.slot
  cases hslot <;> rfl

theorem endLine (h : List.Forall₂ R.Places l l') {m n : Nat} (hl : R.line m n) :
    R.line (l.endLine m) (l'.endLine n) := by
  rw [Layout.endLine, Layout.endLine]
  rcases eq_none_or_eq_some_of_rel (getLast?_slots h) with ⟨h₁, h₂⟩ | ⟨_, _, h₁, h₂, hs⟩ <;>
    rw [h₁, h₂]
  · exact R.lineAfter hl
  · exact R.lineAfter hs.line

theorem terminate (h : List.Forall₂ R.Places l l') {m n : Nat} (hl : R.line m n) :
    ResultRel R.Errors (List.Forall₂ R.Places) (l.terminate m) (l'.terminate n) := by
  rw [Layout.terminate, Layout.terminate, Layout.add, Layout.add, ← isTerminated_eq h, ← h.length_eq]
  split
  · exact .ok h
  split
  · exact .error ⟨rfl, endLine h hl⟩
  · exact .ok (List.rel_append h (.cons (.slot (.instruction _) (endLine h hl)) .nil))

end Layouts

/-! ## Programs -/

/-- The words of both programs, and the tables after them. -/
theorem Tables.write {t t' : SymbolTable} (ht : R.Tables t t') {slots slots' : List (Slot × Nat)}
    (h : List.Forall₂ R.LineSlots slots slots') (room : Nat) :
    ResultRel R.Errors (fun x x' => List.Forall₂ R.Cells x.1 x'.1 ∧ R.Tables x.2 x'.2)
      (t.write room slots) (t'.write room slots') := by
  induction h generalizing t t' room with
  | nil => exact .ok ⟨.nil, ht⟩
  | @cons s s' slots slots' hs _ ih =>
    obtain ⟨slot, line⟩ := s
    obtain ⟨slot', line'⟩ := s'
    rw [SymbolTable.write, SymbolTable.write]
    refine (atLine hs.line (ht.word hs.slot)).bind fun x x' hx => ?_
    dsimp only
    split
    · exact .error ⟨rfl, hs.line⟩
    · refine (ih hx.tables (room - 1)).bind fun y y' hy => ?_
      exact .ok ⟨.cons ⟨hx.word_eq, hs.line⟩ hy.1, hy.2⟩

theorem write {l l' : Layout} {t t' : SymbolTable} (h : List.Forall₂ R.Places l l')
    (ht : R.Tables t t') : ResultRel R.Errors R.Programs (l.write t) (l'.write t') :=
  (ht.write (slots h) Program.cap).bind fun _ _ hx => .ok ⟨hx.1, hx.2.variableNames.length_eq⟩

theorem Programs.words_eq {p p' : Program} (h : R.Programs p p') : p.words = p'.words := by
  have hmap : ∀ {cells cells' : List Cell}, List.Forall₂ R.Cells cells cells' →
      cells.map Cell.word = cells'.map Cell.word := by
    intro cells cells' hc
    induction hc with
    | nil => rfl
    | cons hc _ ih => rw [List.map_cons, List.map_cons, hc.word_eq, ih]
  exact hmap h.cells

/-- Sources that resemble each other become programs that do, or have faults that do. -/
theorem assemble {s s' : Source} (h : R.Sources s.tokens.toList s'.tokens.toList)
    (hl : R.line s.lineCount s'.lineCount) :
    ResultRel R.Errors R.Programs s.assemble s'.assemble := by
  refine (h.defineAliases tables_empty).bind fun x x' hx => ?_
  dsimp only
  rcases eq_none_or_eq_some_of_rel (find?_isAlias hx.2) with ⟨h₁, h₂⟩ | ⟨_, _, h₁, h₂, ht⟩ <;>
    rw [h₁, h₂]
  · have hp := pieces_ofTokens hx.2
    refine (find hp).bind fun blocks _ hb => ?_
    cases hb
    refine (place hp blocks).bind fun l l' hl' => ?_
    refine (bindLabels hl' hx.1).bind fun t t' ht => ?_
    exact (terminate hl' hl).bind fun _ _ hfinished => write hfinished ht
  · exact .error ⟨rfl, ht.line⟩

end Resemblance

end GridBots
