import GridBots.Proofs.Directives
import GridBots.Proofs.Operands
import Mathlib.Data.Finset.Card

/-!
# When names can be defined

A table holds at most one definition of a name, and definitions of at most 512 names
(`SymbolTable.Sized`). Names that are not built in can be defined one after the other as long as
there are no more names than that, all in all (`Definable`); it does not matter how often each is
defined. So the aliases of a source can be defined if all of them are complete
(`IsComplete`, `exists_defineAliases_iff`), and its labels if no name is built in
(`exists_bindLabels_iff`).
-/

namespace GridBots

namespace SymbolTable

variable {t t' : SymbolTable} {name : String} {value : Symbol}

/-- The names that are defined in a table. -/
def names (t : SymbolTable) : Finset String :=
  (t.entries.map Prod.fst).toFinset

/-- A table defines each of its names once, and no more names than it can. -/
structure Sized (t : SymbolTable) : Prop where
  nodup : (t.entries.map Prod.fst).Nodup
  card_names_le : t.names.card ≤ entryCap

/-- Names can be defined after those of a table. -/
structure Definable (t : SymbolTable) (later : List String) : Prop where
  unreserved : ∀ name ∈ later, isReserved name = false
  card_le : (t.names ∪ later.toFinset).card ≤ entryCap

theorem sized_empty : empty.Sized :=
  ⟨List.nodup_nil, Nat.zero_le _⟩

theorem Sized.card_names (h : t.Sized) : t.names.card = t.entries.length := by
  rw [names, List.toFinset_card_of_nodup h.nodup, List.length_map]

theorem Sized.definable_nil (h : t.Sized) : t.Definable [] := by
  refine ⟨fun _ hn => absurd hn List.not_mem_nil, ?_⟩
  rw [List.toFinset_nil, Finset.union_empty]
  exact h.card_names_le

/-! ## Single definitions -/

theorem definition?_eq_none_iff : t.definition? name = none ↔ name ∉ t.names := by
  rw [definition?, List.lookup_eq_none_iff, names, List.mem_toFinset, List.mem_map]
  constructor
  · rintro h ⟨e, he, rfl⟩
    simpa using h e he
  · intro h e he
    rw [bne_iff_ne]
    exact fun heq => h ⟨e, he, heq.symm⟩

theorem names_define (h : t.define name value = .ok t') : t'.names = insert name t.names := by
  ext other
  have hother : t'.definition? other = none ↔ other ∉ t'.names := definition?_eq_none_iff
  rw [definition?_define h] at hother
  rw [← not_iff_not, ← hother, Finset.mem_insert, not_or, ← definition?_eq_none_iff]
  by_cases ho : other = name
  · simp [ho]
  · simp [ho]

theorem Sized.define (ht : t.Sized) (h : t.define name value = .ok t') : t'.Sized := by
  have hnames := names_define h
  rw [SymbolTable.define] at h
  split at h
  · simp at h
  split at h
  · simp at h
  next hcap =>
  cases h
  have hnodup : ((t.entries.filter fun e => e.1 ≠ name).map Prod.fst).Nodup :=
    ht.nodup.sublist (List.filter_sublist.map _)
  refine ⟨List.nodup_cons.2 ⟨fun hmem => ?_, hnodup⟩, ?_⟩
  · obtain ⟨e, he, heq⟩ := List.mem_map.1 hmem
    rw [List.mem_filter, decide_eq_true_eq] at he
    exact he.2 heq
  · rw [hnames]
    by_cases hmem : name ∈ t.names
    · rw [Finset.insert_eq_of_mem hmem]
      exact ht.card_names_le
    · rw [Finset.card_insert_of_notMem hmem, ht.card_names]
      rw [Option.isNone_iff_eq_none, definition?_eq_none_iff] at hcap
      exact Nat.not_le.1 fun hle => hcap ⟨hmem, hle⟩

/-- A name can be defined if it is not built in, and is defined already or there is room. -/
theorem exists_define_iff (ht : t.Sized) (value : Symbol) :
    (∃ t', t.define name value = .ok t') ↔
      isReserved name = false ∧ (insert name t.names).card ≤ entryCap := by
  constructor
  · rintro ⟨t', h⟩
    refine ⟨isReserved_of_define h, ?_⟩
    rw [← names_define h]
    exact (ht.define h).card_names_le
  · rintro ⟨hr, hcard⟩
    rw [define, if_neg (by rw [hr]; exact Bool.false_ne_true), if_neg]
    · exact ⟨_, rfl⟩
    · rintro ⟨hnone, hcap⟩
      rw [Option.isNone_iff_eq_none, definition?_eq_none_iff] at hnone
      rw [Finset.card_insert_of_notMem hnone, ht.card_names] at hcard
      omega

/-- Names can be defined after the first of them is, and if it can be. -/
theorem definable_cons_iff (ht : t.Sized) (value : Symbol) {later : List String} :
    t.Definable (name :: later) ↔
      ∃ t', t.define name value = .ok t' ∧ t'.Definable later := by
  have hunion : t.names ∪ (name :: later).toFinset = insert name t.names ∪ later.toFinset := by
    rw [List.toFinset_cons, Finset.union_insert, Finset.insert_union]
  constructor
  · rintro ⟨hr, hcard⟩
    rw [hunion] at hcard
    obtain ⟨t', h⟩ := (exists_define_iff ht value).2 ⟨hr name List.mem_cons_self,
      (Finset.card_le_card Finset.subset_union_left).trans hcard⟩
    refine ⟨t', h, fun other ho => hr other (List.mem_cons_of_mem _ ho), ?_⟩
    rwa [names_define h]
  · rintro ⟨t', h, hr, hcard⟩
    refine ⟨List.forall_mem_cons.2 ⟨isReserved_of_define h, hr⟩, ?_⟩
    rwa [hunion, ← names_define h]

end SymbolTable

/-! ## Aliases -/

/-- The alias that begins at an index of tokens has a name that can be defined, and a value. -/
def Token.IsComplete (tokens : List Token) (i : Nat) : Prop :=
  ∃ name value, tokens[i + 1]? = some name ∧ tokens[i + 2]? = some value ∧
    name.canBeName = true ∧ SymbolTable.isReserved name.text = false ∧ value.canBeValue = true

/-- All aliases at the beginning of tokens are complete. -/
def Token.AliasesComplete (tokens : List Token) : Prop :=
  ∀ k, IsDirective (tokens.map text) k → IsComplete tokens (3 * k)

namespace SymbolTable

variable {t t' : SymbolTable} {tokens : List Token}

open Token (AliasesComplete)

theorem aliasesComplete_of_not_isAlias {d : Token} (hd : ¬d.isAlias = true) (rest : List Token) :
    AliasesComplete (d :: rest) :=
  fun _ hk => absurd (Token.isAliasText_of_isDirective hk) hd

theorem aliasesComplete_cons_iff {d name value : Token} (hd : d.isAlias = true)
    (rest : List Token) :
    AliasesComplete (d :: name :: value :: rest) ↔
      (name.canBeName = true ∧ isReserved name.text = false ∧ value.canBeValue = true) ∧
        AliasesComplete rest := by
  constructor
  · intro h
    constructor
    · obtain ⟨n, v, hn, hv, hcomplete⟩ := h 0 (Token.isDirective_zero.2 hd)
      cases hn
      cases hv
      exact hcomplete
    · intro k hk
      exact h (k + 1) (Token.isDirective_succ.2 ⟨hd, hk⟩)
  · rintro ⟨hfirst, hrest⟩ k hk
    cases k with
    | zero => exact ⟨name, value, rfl, rfl, hfirst⟩
    | succ k => exact hrest k (Token.isDirective_succ.1 hk).2

theorem isReserved_of_aliasesComplete (h : AliasesComplete tokens) :
    ∀ name ∈ (Token.aliases tokens).map Prod.fst, isReserved name = false := by
  induction tokens using Token.aliases.induct with
  | case1 d name value rest hd ih =>
    obtain ⟨⟨_, hr, _⟩, hrest⟩ := (aliasesComplete_cons_iff hd rest).1 h
    rw [Token.aliases, if_pos hd, List.map_cons, List.forall_mem_cons]
    exact ⟨hr, ih hrest⟩
  | case2 d name value rest hd =>
    rw [Token.aliases, if_neg hd]
    exact fun _ hn => absurd hn List.not_mem_nil
  | case3 tokens ht =>
    rw [Token.aliases.eq_def]
    split
    · next d name value rest => exact absurd rfl (ht d name value rest)
    · exact fun _ hn => absurd hn List.not_mem_nil

/-- The aliases at the beginning of tokens can be defined if all of them are complete and there
    is room for their names. -/
theorem exists_defineAliases_iff (ht : t.Sized) :
    (∃ r, t.defineAliases tokens = .ok r) ↔
      AliasesComplete tokens ∧ t.Definable ((Token.aliases tokens).map Prod.fst) := by
  induction t, tokens using defineAliases.induct with
  | case1 t =>
    refine iff_of_true ⟨_, rfl⟩ ⟨fun k hk => ?_, ht.definable_nil⟩
    obtain ⟨_, hw, _⟩ := hk k (Nat.le_refl k)
    cases hw
  | case2 t d hd name value rest hn ih =>
    rw [aliasesComplete_cons_iff hd, Token.aliases, if_pos hd, List.map_cons,
      definable_cons_iff ht (Symbol.ofText value.text), defineAliases, if_pos hd, if_pos hn]
    constructor
    · rintro ⟨r, h⟩
      obtain ⟨t₁, h₁, h⟩ := except_bind_eq_ok.1 h
      have h₁ := atLine_eq_ok.1 h₁
      obtain ⟨hrest, hlater⟩ := (ih t₁ (ht.define h₁)).1 ⟨r, h⟩
      exact ⟨⟨⟨hn.1, isReserved_of_define h₁, hn.2⟩, hrest⟩, t₁, h₁, hlater⟩
    · rintro ⟨⟨_, hrest⟩, t₁, h₁, hlater⟩
      obtain ⟨r, h⟩ := (ih t₁ (ht.define h₁)).2 ⟨hrest, hlater⟩
      exact ⟨r, except_bind_eq_ok.2 ⟨t₁, atLine_eq_ok.2 h₁, h⟩⟩
  | case3 t d hd name value rest hn =>
    rw [aliasesComplete_cons_iff hd, defineAliases, if_pos hd, if_neg hn]
    refine iff_of_false ?_ fun h => hn ⟨h.1.1.1, h.1.1.2.2⟩
    rintro ⟨_, h⟩
    cases h
  | case4 t d rest hd hr =>
    rw [defineAliases.eq_def]
    simp only [hd, if_true]
    constructor
    · rintro ⟨_, h⟩
      cases h
    · intro h
      -- There is no value after the first alias.
      obtain ⟨name, value, hn, hv, _⟩ := h.1 0 (Token.isDirective_zero.2 hd)
      obtain _ | ⟨name, _ | ⟨value, later⟩⟩ := rest
      · cases hn
      · cases hv
      · exact absurd rfl (hr name value later)
  | case5 t d rest hd =>
    have haliases : Token.aliases (d :: rest) = [] := by
      rw [Token.aliases.eq_def]
      split
      · next heq =>
        cases heq
        rw [if_neg hd]
      · rfl
    rw [defineAliases.eq_def, haliases]
    simp only [hd]
    exact iff_of_true ⟨_, rfl⟩ ⟨aliasesComplete_of_not_isAlias hd rest, ht.definable_nil⟩

theorem Sized.defineAliases {body : List Token} (ht : t.Sized)
    (h : t.defineAliases tokens = .ok (t', body)) : t'.Sized := by
  induction t, tokens using defineAliases.induct with
  | case1 t => cases h; exact ht
  | case2 t d hd name value rest hn ih =>
    rw [SymbolTable.defineAliases, if_pos hd, if_pos hn, except_bind_eq_ok] at h
    obtain ⟨t₁, h₁, h⟩ := h
    exact ih t₁ (ht.define (atLine_eq_ok.1 h₁)) h
  | case3 t d hd name value rest hn =>
    rw [SymbolTable.defineAliases, if_pos hd, if_neg hn] at h
    cases h
  | case4 t d rest hd hr =>
    rw [SymbolTable.defineAliases.eq_def] at h
    simp only [hd, if_true] at h
    cases h
  | case5 t d rest hd =>
    rw [SymbolTable.defineAliases.eq_def] at h
    simp only [hd] at h
    cases h
    exact ht

/-- The names in a table after definitions. -/
theorem Defined.names_eq {definitions : List (String × Symbol)} (h : t.Defined definitions t') :
    t'.names = t.names ∪ (definitions.map Prod.fst).toFinset := by
  ext other
  have hnone : definitions.reverse.lookup other = none ↔
      other ∉ (definitions.map Prod.fst).toFinset := by
    rw [List.lookup_eq_none_iff, List.mem_toFinset, List.mem_map]
    constructor
    · rintro h ⟨e, he, rfl⟩
      simpa using h e (List.mem_reverse.2 he)
    · intro h e he
      rw [bne_iff_ne]
      exact fun heq => h ⟨e, List.mem_reverse.1 he, heq.symm⟩
  rw [← not_iff_not, ← definition?_eq_none_iff, h.definition?_eq, Option.or_eq_none_iff, hnone,
    definition?_eq_none_iff, Finset.mem_union, not_or, and_comm]

/-! ## Labels -/

/-- The labels of pieces can be defined if their names can. Their addresses are words, as long as
    there are not too many words before them. -/
theorem exists_bindLabels_iff {address : Nat} {widths : List Nat} {pieces : List Piece}
    (ht : t.Sized)
    (hlt : address + (Layout.ofPieces widths pieces).slots.length < 0x80000000) :
    (∃ t', Layout.bindLabels address t (Layout.ofPieces widths pieces) = .ok t') ↔
      t.Definable ((Piece.labels address pieces).map Prod.fst) := by
  induction pieces generalizing address t widths with
  | nil => exact iff_of_true ⟨t, rfl⟩ ht.definable_nil
  | cons p pieces ih =>
    obtain ⟨item, line⟩ := p
    cases item with
    | label name =>
      rw [Layout.ofPieces, Piece.labels, List.map_cons,
        definable_cons_iff ht (.number (Int32.ofNat address))]
      constructor
      · rintro ⟨t', h⟩
        obtain ⟨_, t₁, h₁, h⟩ := Layout.bindLabels_label_eq_ok.1 h
        exact ⟨t₁, h₁, (ih (ht.define h₁) hlt).1 ⟨t', h⟩⟩
      · rintro ⟨t₁, h₁, hlater⟩
        obtain ⟨t', h⟩ := (ih (ht.define h₁) hlt).2 hlater
        have haddress : address < 0x80000000 := Nat.lt_of_le_of_lt (Nat.le_add_right _ _) hlt
        exact ⟨t', Layout.bindLabels_label_eq_ok.2 ⟨haddress, t₁, h₁, h⟩⟩
    | closing => exact ih ht hlt
    | namelessLabel => exact ih ht hlt
    | opening | operation _ | operand _ _ => exact ih ht (by rwa [Nat.add_right_comm])

end SymbolTable

end GridBots
