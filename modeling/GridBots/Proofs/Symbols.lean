import GridBots.Assembly
import Mathlib.Data.List.Forall2

/-!
# What names stand for

While the words of a program are written, its symbol table only grows at the end
(`SymbolTable.Extends`): no definition changes, and names that have become variables
keep their addresses. So a word that has been written for an operand is what the
operand stands for in every later table, and in the last one all operands are known
at once (`write_forall₂`).

That a name is looked up as it is resolved needs that no built-in name is defined
(`SymbolTable.Unreserved`), which is so for the tables of every program: names are
defined by `SymbolTable.define` only. That the target of a name is, needs nothing: looking
up a target and using it agree in every table, although only the use tells apart a name
that is its own target (`resolveTarget_eq_settle`, `resolve_eq_settle`).
-/

namespace GridBots

namespace SymbolTable

variable {t t' t'' : SymbolTable} {name text : String} {w : Word}

/-! ## Growing tables -/

/-- The table `t'` has the definitions of `t`, and its variables and maybe more. -/
structure Extends (t t' : SymbolTable) : Prop where
  entries_eq : t'.entries = t.entries
  isPrefix : t.variableNames <+: t'.variableNames

theorem Extends.refl (t : SymbolTable) : t.Extends t :=
  ⟨rfl, List.prefix_rfl⟩

theorem Extends.trans (h : t.Extends t') (h' : t'.Extends t'') : t.Extends t'' :=
  ⟨h'.entries_eq.trans h.entries_eq, h.isPrefix.trans h'.isPrefix⟩

theorem Extends.definition?_eq (h : t.Extends t') : t'.definition? name = t.definition? name := by
  rw [definition?, h.entries_eq, definition?]

theorem Extends.addressOf?_eq (h : t.Extends t') (ha : t.addressOf? name = some w) :
    t'.addressOf? name = some w := by
  obtain ⟨later, hl⟩ := h.isPrefix
  obtain ⟨index, hi, hw⟩ := Option.bind_eq_some_iff.1 ha
  rw [List.idxOf?] at hi
  rw [addressOf?, List.idxOf?, ← hl, List.findIdx?_append, hi]
  exact hw

theorem Extends.lookupTarget?_eq (h : t.Extends t') (hw : t.lookupTarget? name = some w) :
    t'.lookupTarget? name = some w := by
  simp only [lookupTarget?, number?, h.definition?_eq, Option.orElse_eq_orElse, Option.orElse_eq_or,
    Option.or_eq_some_iff] at hw ⊢
  rcases hw with hw | ⟨hb, hw | ⟨hn, hw⟩⟩
  · exact .inl hw
  · exact .inr ⟨hb, .inl hw⟩
  · exact .inr ⟨hb, .inr ⟨hn, h.addressOf?_eq hw⟩⟩

/-- What a name stands for never changes. -/
theorem Extends.lookup_eq (h : t.Extends t') (hw : t.lookup name = some w) :
    t'.lookup name = some w := by
  simp only [lookup, h.definition?_eq, Option.orElse_eq_orElse, Option.orElse_eq_or,
    Option.or_eq_some_iff] at hw ⊢
  rcases hw with hw | ⟨hb, hw⟩
  · exact .inl hw
  refine .inr ⟨hb, ?_⟩
  cases hd : t.definition? name with
  | none => exact h.addressOf?_eq (by rwa [hd] at hw)
  | some s =>
    cases s with
    | number v => rwa [hd] at hw
    | name target => exact h.lookupTarget?_eq (by rwa [hd] at hw)

/-! ## Tables of programs -/

/-- No built-in name is defined. -/
def Unreserved (t : SymbolTable) : Prop :=
  ∀ name, (t.definition? name).isSome → isReserved name = false

theorem unreserved_empty : empty.Unreserved := by
  intro name h
  cases h

theorem Unreserved.builtin?_eq (ht : t.Unreserved) (h : (t.definition? name).isSome) :
    builtin? name = none := by
  have hr := ht name h
  rw [isReserved, Bool.or_eq_false_iff] at hr
  exact Option.not_isSome_iff_eq_none.1 (by rw [hr.2]; exact Bool.false_ne_true)

theorem isReserved_of_define {value : Symbol} (h : t.define name value = .ok t') :
    isReserved name = false := by
  rw [define] at h
  split at h
  · simp at h
  · next hr => exact Bool.not_eq_true _ ▸ hr

theorem Unreserved.define {value : Symbol} (ht : t.Unreserved) (h : t.define name value = .ok t') :
    t'.Unreserved := by
  intro other ho
  rw [definition?_define h] at ho
  by_cases hn : other = name
  · exact hn ▸ isReserved_of_define h
  · rw [if_neg hn] at ho
    exact ht other ho

theorem isReserved_of_ofMnemonic? {op : Opcode} (h : Opcode.ofMnemonic? name = some op) :
    isReserved name = true := by
  rw [isReserved, builtin?, h]
  exact Bool.or_true _

theorem Unreserved.extends (ht : t.Unreserved) (h : t.Extends t') : t'.Unreserved := by
  intro name hn
  rw [h.definition?_eq] at hn
  exact ht name hn

theorem Unreserved.defineAliases {tokens body : List Token} (ht : t.Unreserved)
    (h : t.defineAliases tokens = .ok (t', body)) : t'.Unreserved := by
  induction t, tokens using defineAliases.induct with
  | case1 t => cases h; exact ht
  | case2 t d hd name value rest hn ih =>
    rw [SymbolTable.defineAliases, if_pos hd, if_pos hn, except_bind_eq_ok] at h
    obtain ⟨t₁, h₁, h⟩ := h
    exact ih t₁ (ht.define (atLine_eq_ok.1 h₁)) h
  | case3 t d hd name value rest hn =>
    rw [SymbolTable.defineAliases, if_pos hd, if_neg hn] at h
    simp at h
  | case4 t d rest hd hr =>
    rw [SymbolTable.defineAliases.eq_def] at h
    simp only [hd, if_true] at h
    simp at h
  | case5 t d rest hd =>
    rw [SymbolTable.defineAliases.eq_def] at h
    simp only [hd] at h
    cases h
    exact ht

theorem Unreserved.bindLabels {l : Layout} {address : Nat} (ht : t.Unreserved)
    (h : l.bindLabels address t = .ok t') : t'.Unreserved := by
  induction l generalizing address t with
  | nil => cases h; exact ht
  | cons p l ih =>
    cases p with
    | slot s line => exact ih ht h
    | label name line =>
      obtain ⟨_, t₁, h₁, h⟩ := Layout.bindLabels_label_eq_ok.1 h
      exact ih (ht.define h₁) h

/-! ## Resolution -/

/-- The word that an operand is, if it is known what it stands for. -/
def value? (t : SymbolTable) (text : String) : Option Word :=
  Numeral.parse? text <|> t.lookup text

/-- The word that a slot is for, if it is known what the names in it stand for. -/
def word? (t : SymbolTable) : Slot → Option Word
  | .instruction h => some h.encode
  | .operand text => t.value? text
  | .skip width => some (Int32.ofNat width)

theorem Extends.word?_eq {s : Slot} (h : t.Extends t') (hw : t.word? s = some w) :
    t'.word? s = some w := by
  cases s with
  | instruction _ => exact hw
  | skip _ => exact hw
  | operand text =>
    simp only [word?, value?, Option.orElse_eq_orElse, Option.orElse_eq_or,
    Option.or_eq_some_iff] at hw ⊢
    exact hw.imp_right fun ⟨hp, hw⟩ => ⟨hp, h.lookup_eq hw⟩

/-! ## Names that are used -/

/-- A variable has the address that its place among the variables has. -/
theorem addressOf?_eq_map (hcap : t.variableNames.length ≤ variableCap) (name : String) :
    t.addressOf? name = (t.variableNames.idxOf? name).map variableAddress := by
  rw [addressOf?]
  cases hi : t.variableNames.idxOf? name with
  | none => rfl
  | some index =>
    have hlt := (List.idxOf?_eq_some_iff.1 hi).1
    rw [Option.bind_some, variableAddress?_eq, if_pos (Nat.lt_of_lt_of_le hlt hcap), Option.map_some]

/-- A name without an address is no variable yet. -/
theorem not_mem_variableNames_of_addressOf? (h : t.addressOf? name = none)
    (hcap : t.variableNames.length ≤ variableCap) : name ∉ t.variableNames := by
  rw [addressOf?_eq_map hcap, Option.map_eq_none_iff] at h
  simpa using h

/-- A name that is no variable yet has an address when it has become the last one. -/
theorem addressOf?_append (h : t.addressOf? name = none)
    (hroom : t.variableNames.length < variableCap) :
    addressOf? { t with variableNames := t.variableNames ++ [name] } name =
      some (variableAddress t.variableNames.length) := by
  have hnone : t.variableNames.findIdx? (· == name) = none :=
    List.idxOf?_eq_none_iff.2 (not_mem_variableNames_of_addressOf? h (Nat.le_of_lt hroom))
  have hindex : (t.variableNames ++ [name]).idxOf? name = some t.variableNames.length := by
    rw [List.idxOf?, List.findIdx?_append, hnone, List.findIdx?_singleton,
      if_pos (beq_self_eq_true name)]
    simp
  rw [addressOf?, hindex, Option.bind_some, variableAddress?_eq, if_pos hroom]

theorem addVariable_eq (h : t.addressOf? name = none) :
    t.addVariable name =
      if t.variableNames.length < variableCap then
        .ok (variableAddress t.variableNames.length,
          { t with variableNames := t.variableNames ++ [name] })
      else .error .variableZoneFull := by
  rw [addVariable]
  split
  · next hroom =>
    dsimp only
    rw [addressOf?_append h hroom]
  · rfl

/-- What a name stands for by itself. If that is not known yet, the name becomes the next
    variable. -/
def settle (t : SymbolTable) (name : String) : Except Fault (Word × SymbolTable) :=
  match t.lookupTarget? name with
  | some w => .ok (w, t)
  | none =>
    if t.variableNames.length < variableCap then
      .ok (variableAddress t.variableNames.length,
        { t with variableNames := t.variableNames ++ [name] })
    else .error .variableZoneFull

/-- The target of a name is used as it is looked up, whether it is the name itself or not: a name
    that is its own target is not defined to be a number. -/
theorem resolveTarget_eq_settle {target : String} (h : target = name → t.number? name = none) :
    t.resolveTarget name target = t.settle target := by
  have hnumber : (if target ≠ name then t.number? target else none) = t.number? target := by
    by_cases ht : target = name
    · rw [if_neg (not_not.2 ht), ht, h ht]
    · rw [if_pos ht]
  rw [resolveTarget, settle, lookupTarget?, hnumber]
  cases hknown : (builtin? target <|> t.number? target <|> t.addressOf? target) with
  | some w => rfl
  | none =>
    simp only [Option.orElse_eq_orElse, Option.orElse_eq_or, Option.or_eq_none_iff] at hknown
    exact addVariable_eq hknown.2.2

/-- In every table, a name that is used is settled through its target. -/
theorem resolve_eq_settle (t : SymbolTable) (name : String) :
    t.resolve name =
      match t.definition? name with
      | some (.number w) => .ok (w, t)
      | some (.name target) => t.settle target
      | none => t.settle name := by
  rw [resolve]
  cases hd : t.definition? name with
  | none => exact resolveTarget_eq_settle fun _ => by rw [number?, hd]
  | some symbol =>
    cases symbol with
    | number w => rfl
    | name target => exact resolveTarget_eq_settle fun _ => by rw [number?, hd]

theorem extends_settle (h : t.settle name = .ok (w, t')) :
    t.Extends t' ∧ t'.lookupTarget? name = some w := by
  rw [settle] at h
  split at h
  · next v hv =>
    cases h
    exact ⟨.refl t, hv⟩
  · next hs =>
    split at h
    · next hroom =>
      cases h
      refine ⟨⟨rfl, List.prefix_append _ _⟩, ?_⟩
      -- The name is the last variable, and was none before.
      simp only [lookupTarget?, Option.orElse_eq_orElse, Option.orElse_eq_or,
        Option.or_eq_none_iff] at hs
      obtain ⟨hb, hn, ha⟩ := hs
      have hn' : number? { t with variableNames := t.variableNames ++ [name] } name = none := hn
      rw [lookupTarget?, hb, hn', addressOf?_append ha hroom]
      rfl
    · simp at h

theorem extends_resolve (ht : t.Unreserved) (h : t.resolve name = .ok (w, t')) :
    t.Extends t' ∧ t'.lookup name = some w := by
  rw [resolve_eq_settle] at h
  split at h
  · next v hd =>
    cases h
    refine ⟨.refl t, ?_⟩
    rw [lookup, ht.builtin?_eq (by rw [hd]; rfl), hd]
    rfl
  · next target hd =>
    -- An alias of another name, which is settled in its place.
    obtain ⟨he, hs⟩ := extends_settle h
    refine ⟨he, ?_⟩
    rw [lookup, ht.builtin?_eq (by rw [hd]; rfl), he.definition?_eq, hd]
    exact hs
  · next hd =>
    obtain ⟨he, hs⟩ := extends_settle h
    refine ⟨he, ?_⟩
    rw [lookupTarget?, number?, he.definition?_eq, hd] at hs
    rw [lookup, he.definition?_eq, hd]
    exact hs

theorem word_skip_eq_ok {width : Nat} :
    t.word (.skip width) = .ok (w, t') ↔ width < 0x80000000 ∧ Int32.ofNat width = w ∧ t = t' := by
  rw [word, except_bind_eq_ok]
  constructor
  · rintro ⟨v, hv, h⟩
    obtain ⟨hlt, rfl⟩ := Layout.countWord_eq_ok.1 hv
    cases h
    exact ⟨hlt, rfl, rfl⟩
  · rintro ⟨hlt, rfl, rfl⟩
    exact ⟨_, Layout.countWord_of_lt hlt, rfl⟩

/-- A word that is written for a slot is the word that the slot is for from then on. -/
theorem extends_word {s : Slot} (ht : t.Unreserved) (h : t.word s = .ok (w, t')) :
    t.Extends t' ∧ t'.word? s = some w := by
  cases s with
  | instruction _ => cases h; exact ⟨.refl t, rfl⟩
  | skip _ =>
    obtain ⟨_, rfl, rfl⟩ := word_skip_eq_ok.1 h
    exact ⟨.refl t, rfl⟩
  | operand text =>
    rw [word, SymbolTable.operand] at h
    split at h
    · next v hp =>
      cases h
      exact ⟨.refl t, by rw [word?, value?, hp]; rfl⟩
    · next hp =>
      obtain ⟨he, hl⟩ := extends_resolve ht h
      exact ⟨he, by rw [word?, value?, hp, hl]; rfl⟩

/-! ## Writing -/

variable {room : Nat} {slots : List (Slot × Nat)} {cells : List Cell}

/-- Words are written for slots if there is a word for the first one, room for it, and words
    for the others in the rest of the room. -/
theorem write_cons_eq_ok {s : Slot} {line : Nat} :
    t.write room ((s, line) :: slots) = .ok (cells, t') ↔
      ∃ w t₁ later, t.word s = .ok (w, t₁) ∧ room ≠ 0 ∧
        t₁.write (room - 1) slots = .ok (later, t') ∧ cells = ⟨w, line⟩ :: later := by
  rw [write, except_bind_eq_ok]
  by_cases hr : room = 0
  · simp [hr]
  · constructor
    · rintro ⟨⟨w, t₁⟩, hw, h⟩
      dsimp only at h
      rw [if_neg hr, except_bind_eq_ok] at h
      obtain ⟨⟨later, t₂⟩, hl, h⟩ := h
      cases h
      exact ⟨w, t₁, later, atLine_eq_ok.1 hw, hr, hl, rfl⟩
    · rintro ⟨w, t₁, later, hw, _, hl, rfl⟩
      refine ⟨(w, t₁), atLine_eq_ok.2 hw, ?_⟩
      dsimp only
      rw [if_neg hr, hl]
      rfl

/-- The words of a program are those that the slots are for, when all of them are
    written. -/
theorem write_forall₂ (ht : t.Unreserved) (h : t.write room slots = .ok (cells, t')) :
    t.Extends t' ∧
      List.Forall₂ (fun s c => t'.word? s.1 = some c.word ∧ s.2 = c.line) slots cells := by
  induction slots generalizing t room cells with
  | nil => cases h; exact ⟨.refl _, .nil⟩
  | cons s slots ih =>
    obtain ⟨w, t₁, later, h₁, _, h₂, rfl⟩ := write_cons_eq_ok.1 h
    obtain ⟨he₁, hw⟩ := extends_word ht h₁
    obtain ⟨he₂, hl⟩ := ih (ht.extends he₁) h₂
    exact ⟨he₁.trans he₂, .cons ⟨he₂.word?_eq hw, rfl⟩ hl⟩

theorem length_write_le (h : t.write room slots = .ok (cells, t')) : cells.length ≤ room := by
  induction slots generalizing t room cells with
  | nil => cases h; exact Nat.zero_le _
  | cons s slots ih =>
    obtain ⟨w, t₁, later, _, hr, h₂, rfl⟩ := write_cons_eq_ok.1 h
    have hl : later.length ≤ room - 1 := ih h₂
    rw [List.length_cons]
    omega

/-- The words for the first slots are written first. -/
theorem write_take {first : List (Slot × Nat)}
    (h : t.write room (first ++ slots) = .ok (cells, t')) :
    ∃ t₁, t.write room first = .ok (cells.take first.length, t₁) := by
  induction first generalizing t room cells with
  | nil => exact ⟨t, rfl⟩
  | cons s first ih =>
    obtain ⟨w, t₁, later, h₁, hr, h₂, rfl⟩ := write_cons_eq_ok.1 h
    obtain ⟨t₂, h₃⟩ := ih h₂
    exact ⟨t₂, write_cons_eq_ok.2 ⟨w, t₁, _, h₁, hr, h₃, rfl⟩⟩

end SymbolTable

end GridBots
