import GridBots.Proofs.Symbols
import GridBots.Proofs.Widths

/-!
# What may be wrong with a layout

If nothing is wrong with the braces and labels of a program of at most 4096 tokens,
only one thing may be wrong with its layout: an instruction with too many operands
(`firstFault?_cases`). If that is not so either, every instruction has at most seven
operands (`length_operandFlags_le`).

Nothing is ever wrong with the numbers of words in a layout (`counted_of_place`). There
are far fewer places than words, so that the address of a label is always a word
(`Counted.fault_of_bindLabels`), and so is the width of a block (`Counted.word_skip`).
-/

namespace GridBots.Layout

open Piece (openings)

variable {blocks room : Nat} {pending? : Option Pending} {pieces pre post : List Piece}

theorem pendingFault?_cases (pending? : Option Pending) :
    pending?.bind Pending.fault? = none ∨
      ∃ line, pending?.bind Pending.fault? = some ⟨.tooManyOperands, line⟩ := by
  cases pending? with
  | none => exact .inl rfl
  | some pending =>
    rw [Option.bind_some, Pending.fault?]
    split
    · exact .inl rfl
    · exact .inr ⟨pending.line, rfl⟩

/-- The layout of pieces without faults in their braces and labels has no other fault
    than an instruction with too many operands, as long as there is room for it. -/
theorem firstFault?_cases {count : Nat} {unclosed : List Nat}
    (h : Block.firstFault? count unclosed pieces = none) (hb : openings pieces ≤ blocks)
    (hr : Block.tokenCount pieces ≤ room) :
    firstFault? blocks room pending? pieces = none ∨
      ∃ line, firstFault? blocks room pending? pieces = some ⟨.tooManyOperands, line⟩ := by
  induction pieces generalizing count unclosed blocks room pending? with
  | nil => exact .inl rfl
  | cons p pieces ih =>
    obtain ⟨item, line⟩ := p
    rw [Piece.openings_cons] at hb
    rw [Block.tokenCount] at hr
    cases item with
    | opening =>
      -- There is a block for the brace, and room for its slot.
      have hb' : openings pieces + 1 ≤ blocks := hb
      have hr' : 1 + Block.tokenCount pieces ≤ room := hr
      rw [firstFault?, if_neg (by omega)]
      rcases pendingFault?_cases pending? with hp | ⟨l, hp⟩
      · rw [hp, if_neg (by omega)]
        exact ih (Block.firstFault?_of_opening h) (by omega) (by omega)
      · exact .inr ⟨l, by rw [hp]; rfl⟩
    | closing =>
      cases unclosed with
      | nil => cases h
      | cons _ _ => exact ih h hb (Nat.le_trans (Nat.le_add_left _ _) hr)
    | namelessLabel => cases h
    | label name =>
      have hr' : 2 + Block.tokenCount pieces ≤ room := hr
      rw [firstFault?, if_neg (by omega)]
      exact ih h hb (by omega)
    | operation op =>
      have hr' : 1 + Block.tokenCount pieces ≤ room := hr
      rw [firstFault?, if_neg (by omega)]
      exact ih h hb (by omega)
    | operand text immediate =>
      have hr' : 1 + Block.tokenCount pieces ≤ room := hr
      rw [firstFault?]
      rcases pendingFault?_cases pending? with hp | ⟨l, hp⟩
      · rw [hp, if_neg (by omega)]
        exact ih h hb (by omega)
      · exact .inr ⟨l, by rw [hp]; rfl⟩

/-! ## Layouts without faults -/

theorem orElse_eq_none {α : Type} {x y : Option α} (h : (x <|> y) = none) :
    x = none ∧ y = none := by
  rwa [Option.orElse_eq_orElse, Option.orElse_eq_or, Option.or_eq_none_iff] at h

theorem eq_none_of_if {α : Type} {c : Prop} [Decidable c] {a : α} {x : Option α}
    (h : (if c then some a else x) = none) : ¬c ∧ x = none := by
  split at h
  · simp at h
  · next hc => exact ⟨hc, h⟩

/-- If nothing is wrong with the layout of pieces, nothing is wrong with that of the
    first of them, and of the last of them. -/
theorem firstFault?_append_eq_none (h : firstFault? blocks room pending? (pre ++ post) = none) :
    firstFault? blocks room pending? pre = none ∧
      ∃ blocks room pending?, firstFault? blocks room pending? post = none := by
  induction pre generalizing blocks room pending? with
  | nil => exact ⟨rfl, blocks, room, pending?, h⟩
  | cons p pre ih =>
    obtain ⟨item, line⟩ := p
    rw [List.cons_append] at h
    cases item with
    | opening =>
      rw [firstFault?] at h ⊢
      obtain ⟨hb, h⟩ := eq_none_of_if h
      obtain ⟨hp, h⟩ := orElse_eq_none h
      obtain ⟨hr, h⟩ := eq_none_of_if h
      rw [if_neg hb, hp, if_neg hr]
      exact ih h
    | closing => exact ih h
    | namelessLabel => cases h
    | label name | operation op =>
      rw [firstFault?] at h ⊢
      obtain ⟨hr, h⟩ := eq_none_of_if h
      rw [if_neg hr]
      exact ih h
    | operand text immediate =>
      rw [firstFault?] at h ⊢
      obtain ⟨hp, h⟩ := orElse_eq_none h
      obtain ⟨hr, h⟩ := eq_none_of_if h
      rw [hp, if_neg hr]
      exact ih h

theorem operands_lt {pending : Pending} (h : pending.fault? = none) :
    pending.operands < Header.maxOperands := by
  rw [Pending.fault?] at h
  split at h
  · assumption
  · simp at h

theorem operands_add_length_le {pending : Pending} (hp : pending.operands ≤ Header.maxOperands)
    (h : firstFault? blocks room (some pending) pieces = none) :
    pending.operands + (operandFlags pieces).length ≤ Header.maxOperands := by
  induction pieces generalizing blocks room pending with
  | nil => exact hp
  | cons p pieces ih =>
    obtain ⟨item, line⟩ := p
    cases item with
    | opening =>
      rw [firstFault?] at h
      exact operands_lt (orElse_eq_none (eq_none_of_if h).2).1
    | operand text immediate =>
      rw [firstFault?] at h
      obtain ⟨hf, h⟩ := orElse_eq_none h
      have hm : pending.more.operands ≤ Header.maxOperands := operands_lt hf
      have hl := ih hm (eq_none_of_if h).2
      rw [operandFlags, List.length_cons]
      rwa [Pending.more, Nat.add_right_comm] at hl
    | closing => exact hp
    | namelessLabel => exact hp
    | label _ => exact hp
    | operation _ => exact hp

/-- An instruction in a layout without faults has at most seven operands. -/
theorem length_operandFlags_le {op : Opcode} {line : Nat}
    (h : firstFault? blocks room pending? (pre ++ ⟨.operation op, line⟩ :: post) = none) :
    (operandFlags post).length ≤ Header.maxOperands := by
  obtain ⟨_, blocks, room, pending?, h⟩ := firstFault?_append_eq_none h
  rw [firstFault?] at h
  have hl := operands_add_length_le (Nat.zero_le _) (eq_none_of_if h).2
  rwa [Nat.zero_add] at hl

/-! ## Numbers of words -/

/-- The numbers of words that a layout has in it are words: those before its labels, and those of
    its blocks. -/
structure Counted (l : Layout) : Prop where
  length_slots_lt : l.slots.length < 0x80000000
  skip_lt : ∀ width line, (.skip width, line) ∈ l.slots → width < 0x80000000

theorem length_slots_le (l : Layout) : l.slots.length ≤ l.length := by
  induction l with
  | nil => exact Nat.le_refl 0
  | cons p l ih =>
    cases p with
    | slot s line => exact Nat.succ_le_succ ih
    | label name line => exact Nat.le_succ_of_le ih

/-- A layout without faults has places for which there was room. -/
theorem length_ofPieces_le (widths : List Nat)
    (h : firstFault? blocks room pending? pieces = none) :
    (ofPieces widths pieces).length ≤ room := by
  induction pieces generalizing blocks room pending? widths with
  | nil => exact Nat.zero_le room
  | cons p pieces ih =>
    obtain ⟨item, line⟩ := p
    -- One place more is one for which there is room.
    have hsucc : ∀ {widths : List Nat}, ¬room = 0 →
        (ofPieces widths pieces).length ≤ room - 1 → (ofPieces widths pieces).length + 1 ≤ room :=
      fun hroom hle => by omega
    cases item with
    | opening =>
      rw [firstFault?] at h
      obtain ⟨hroom, h⟩ := eq_none_of_if (orElse_eq_none (eq_none_of_if h).2).2
      exact hsucc hroom (ih widths.tail h)
    | closing => exact ih widths h
    | namelessLabel => cases h
    | label name | operation op =>
      rw [firstFault?] at h
      obtain ⟨hroom, h⟩ := eq_none_of_if h
      exact hsucc hroom (ih widths h)
    | operand text immediate =>
      rw [firstFault?] at h
      obtain ⟨hroom, h⟩ := eq_none_of_if (orElse_eq_none h).2
      exact hsucc hroom (ih widths h)

/-- The numbers of words of blocks are those that are given for them. -/
theorem mem_widths_of_skip {widths : List Nat} {width line : Nat}
    (h : (.skip width, line) ∈ (ofPieces widths pieces).slots) : width ∈ widths ∨ width = 0 := by
  induction pieces generalizing widths with
  | nil => exact absurd h List.not_mem_nil
  | cons p pieces ih =>
    obtain ⟨item, _⟩ := p
    have hslot : ∀ {s : Slot} {line' : Nat}, (∀ width, s ≠ .skip width) →
        (.skip width, line) ∈ (s, line') :: (ofPieces widths pieces).slots →
          width ∈ widths ∨ width = 0 := by
      intro s line' hs hmem
      rcases List.mem_cons.1 hmem with heq | hmem
      · cases heq
        exact absurd rfl (hs width)
      · exact ih hmem
    cases item with
    | opening =>
      rcases List.mem_cons.1 h with heq | h
      · cases heq
        cases widths with
        | nil => exact .inr rfl
        | cons _ _ => exact .inl List.mem_cons_self
      · exact (ih h).imp_left List.mem_of_mem_tail
    | closing | label _ | namelessLabel => exact ih h
    | operation _ => exact hslot (by simp) h
    | operand _ _ => exact hslot (by simp) h

/-- The numbers of words in the layout of a program are always words. -/
theorem counted_of_place {found : List Block} {l : Layout} (hb : Block.find pieces = .ok found)
    (hl : place pieces found = .ok l) : l.Counted := by
  obtain ⟨_, rfl⟩ := Block.find_eq_ok_iff.1 hb
  obtain ⟨hf, rfl⟩ := place_eq_ok_iff.1 hl
  have hlength : Block.widthOf pieces ≤ cap := by
    rw [← length_slots_ofPieces ((Block.ofPieces 0 pieces).map Block.width)]
    exact Nat.le_trans (length_slots_le _) (length_ofPieces_le _ hf)
  have hcap : cap < 0x80000000 := by decide
  refine ⟨?_, fun width line hskip => ?_⟩
  · rw [length_slots_ofPieces]
    exact Nat.lt_of_le_of_lt hlength hcap
  · rcases mem_widths_of_skip hskip with hmem | rfl
    · obtain ⟨b, hb, rfl⟩ := List.mem_map.1 hmem
      exact Nat.lt_of_le_of_lt (Nat.le_trans (Block.width_le_of_mem hb) hlength) hcap
    · decide

theorem fault_of_define {t : SymbolTable} {name : String} {value : Symbol} {fault : Fault}
    (h : t.define name value = .error fault) : fault = .reservedName ∨ fault = .tooManySymbols := by
  rw [SymbolTable.define] at h
  split at h
  · exact .inl (Except.error.inj h).symm
  · split at h
    · exact .inr (Except.error.inj h).symm
    · cases h

theorem fault_of_bindLabels {l : Layout} {address : Nat} {t : SymbolTable} {e : AssemblyError}
    (hlt : address + l.slots.length < 0x80000000) (h : l.bindLabels address t = .error e) :
    e.fault = .reservedName ∨ e.fault = .tooManySymbols := by
  induction l generalizing address t with
  | nil => cases h
  | cons p l ih =>
    cases p with
    | slot s line =>
      refine ih ?_ h
      rw [Nat.add_right_comm]
      exact hlt
    | label name line =>
      have haddress : address < 0x80000000 := Nat.lt_of_le_of_lt (Nat.le_add_right _ _) hlt
      rw [bindLabels, countWord_of_lt haddress] at h
      rcases except_bind_eq_error.1 h with hword | ⟨w, hword, h⟩
      · cases hword
      rcases except_bind_eq_error.1 h with hdefine | ⟨t₁, _, h⟩
      · obtain ⟨fault, hfault, rfl⟩ := atLine_eq_error.1 hdefine
        exact fault_of_define hfault
      · exact ih hlt h

/-- The labels of a program are refused for their names only, and not for their addresses. -/
theorem Counted.fault_of_bindLabels {l : Layout} {t : SymbolTable} {e : AssemblyError}
    (hl : l.Counted) (h : l.bindLabels 0 t = .error e) :
    e.fault = .reservedName ∨ e.fault = .tooManySymbols :=
  Layout.fault_of_bindLabels ((Nat.zero_add _).symm ▸ hl.length_slots_lt) h

/-- The blocks of a program are not refused for their numbers of words. -/
theorem Counted.word_skip {l : Layout} {width line : Nat} (hl : l.Counted)
    (h : (.skip width, line) ∈ l.slots) (t : SymbolTable) :
    t.word (.skip width) = .ok (Int32.ofNat width, t) :=
  SymbolTable.word_skip_eq_ok.2 ⟨hl.skip_lt width line h, rfl, rfl⟩

end GridBots.Layout
