import GridBots.Proofs.Addresses

/-!
# What labels stand for

A label may be declared more than once, and then the last declaration counts, also over
an alias of the same name. Where the name is used, it stands for the address of the word
after one of its declarations (`Source.Stages.exists_value?_of_label`).
-/

namespace GridBots

open Block (widthOf)

/-- The name of a label is a name, and not a numeral. -/
theorem Piece.canBeName_of_label {tokens : List Token} {name : String} {line : Nat}
    (h : ⟨.label name, line⟩ ∈ ofTokens tokens) :
    ∃ t : Token, t.canBeName = true ∧ t.text = name := by
  induction tokens using ofTokens.induct with
  | case1 => exact absurd h List.not_mem_nil
  | case2 t ht =>
    rw [ofTokens, if_pos ht, List.mem_singleton] at h
    simp at h
  | case3 t ht n rest hn ih =>
    rw [ofTokens_label ht hn] at h
    rcases List.mem_cons.1 h with h | h
    · cases h
      exact ⟨n, hn, rfl⟩
    · exact ih h
  | case4 t ht n rest hn ih =>
    rw [ofTokens_namelessLabel ht hn] at h
    rcases List.mem_cons.1 h with h | h
    · simp at h
    · exact ih h
  | case5 t rest ht ih =>
    rw [ofTokens_cons ht] at h
    rcases List.mem_cons.1 h with h | h
    · rcases ofToken_cases t with ⟨_, hp⟩ | ⟨_, hp⟩ | ⟨_, _, ⟨_, _, hp⟩ | ⟨_, hp⟩⟩ <;>
        rw [hp] at h <;> simp at h
    · exact ih h

theorem SymbolTable.definition?_define_self {t t' : SymbolTable} {name : String} {value : Symbol}
    (h : t.define name value = .ok t') : t'.definition? name = some value := by
  rw [definition?_define h, if_pos rfl]

/-- After the labels of pieces are defined, a name is defined to be the number of words
    before one of its declarations, or it has none and is defined as before. -/
theorem Layout.definition?_bindLabels {address : Nat} {t t' : SymbolTable} {widths : List Nat}
    {pieces : List Piece} (h : bindLabels address t (ofPieces widths pieces) = .ok t')
    (name : String) :
    (∃ pre line post, pieces = pre ++ ⟨.label name, line⟩ :: post ∧
        t'.definition? name = some (.number (Int32.ofNat (address + widthOf pre)))) ∨
      ((∀ line, ⟨.label name, line⟩ ∉ pieces) ∧ t'.definition? name = t.definition? name) := by
  induction pieces generalizing address t widths with
  | nil =>
    obtain rfl := Except.ok.inj h
    exact .inr ⟨fun _ => List.not_mem_nil, rfl⟩
  | cons p pieces ih =>
    obtain ⟨item, line⟩ := p
    have hstep : ∀ {widths' t₁}, bindLabels (address + item.width) t₁ (ofPieces widths' pieces) =
        .ok t' → (∀ line', (⟨.label name, line'⟩ : Piece) ≠ ⟨item, line⟩) →
          t₁.definition? name = t.definition? name →
        (∃ pre l post, ⟨item, line⟩ :: pieces = pre ++ ⟨.label name, l⟩ :: post ∧
            t'.definition? name = some (.number (Int32.ofNat (address + widthOf pre)))) ∨
          ((∀ l, ⟨.label name, l⟩ ∉ (⟨item, line⟩ :: pieces : List Piece)) ∧
            t'.definition? name = t.definition? name) := by
      intro widths' t₁ hb hne hd
      rcases ih hb with ⟨pre, l, post, rfl, hw⟩ | ⟨hno, hsame⟩
      · exact .inl ⟨⟨item, line⟩ :: pre, l, post, rfl, by rw [hw, widthOf, Nat.add_assoc]⟩
      · refine .inr ⟨fun l hm => ?_, hsame.trans hd⟩
        rcases List.mem_cons.1 hm with hm | hm
        · exact hne l hm
        · exact hno l hm
    cases item with
    | label other =>
      rw [ofPieces, bindLabels_label_eq_ok] at h
      obtain ⟨_, t₁, hdef, h⟩ := h
      by_cases hn : other = name
      · -- A declaration of the name, which counts unless there is another one later.
        subst hn
        rcases ih h with ⟨pre, l, post, rfl, hw⟩ | ⟨_, hsame⟩
        · refine .inl ⟨⟨.label other, line⟩ :: pre, l, post, rfl, ?_⟩
          rw [hw, widthOf]
          exact congrArg (some ∘ Symbol.number ∘ Int32.ofNat)
            (congrArg (address + ·) (Nat.zero_add _).symm)
        · refine .inl ⟨[], line, pieces, rfl, ?_⟩
          rw [hsame, SymbolTable.definition?_define_self hdef]
          rfl
      · refine hstep h (fun l hl => hn ?_) ?_
        · cases hl
          rfl
        · rw [SymbolTable.definition?_define hdef, if_neg (Ne.symm hn)]
    | opening => exact hstep h (by simp) rfl
    | closing => exact hstep h (by simp) rfl
    | namelessLabel => exact hstep h (by simp) rfl
    | operation op => exact hstep h (by simp) rfl
    | operand text immediate => exact hstep h (by simp) rfl

namespace Source.Stages

variable {s : Source} {p : Program} (st : s.Stages p)

/-- A name that a label declares stands for the address of the word after one of its
    declarations. -/
theorem exists_value?_of_label {name : String} {line : Nat} (h : ⟨.label name, line⟩ ∈ s.pieces) :
    ∃ pre line post, s.pieces = pre ++ ⟨.label name, line⟩ :: post ∧
      st.symbols.value? name = some (Int32.ofNat (widthOf pre)) := by
  have hb := st.bindLabels_eq
  rw [← st.layout_eq] at hb
  rcases Layout.definition?_bindLabels hb name with ⟨pre, l, post, hp, hd⟩ | ⟨hno, _⟩
  · refine ⟨pre, l, post, hp, ?_⟩
    have hextends := (SymbolTable.write_forall₂ st.unreserved_labels st.write_eq).1
    obtain ⟨t, hn, rfl⟩ := Piece.canBeName_of_label h
    simp only [Token.canBeName, decide_eq_true_eq] at hn
    have hdefined : (st.labels.definition? t.text).isSome := by rw [hd]; rfl
    have hbuiltin := st.unreserved_labels.builtin?_eq hdefined
    rw [SymbolTable.value?, hn.2, SymbolTable.lookup, hbuiltin, hextends.definition?_eq, hd,
      Nat.zero_add]
    rfl
  · exact absurd h (hno line)

end Source.Stages

end GridBots
