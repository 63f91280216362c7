import GridBots.Proofs.Pieces
import GridBots.Proofs.Placing

/-!
# Where words stand

The words of a program are counted in several ways: a block has a width
(`Block.widthOf`), and a layout has slots (`Layout.slots`). Here they are the same
count: a layout has as many slots as the pieces are wide (`length_slots_ofPieces`),
so that the slots of a piece begin after as many as the pieces before it are wide
(`exists_ofPieces_append`). With blocks it is likewise: those of a piece come after as
many as are opened before it (`drop_ofPieces`).

If nothing is wrong with the braces, the brace that closes a block follows what is
inside of it (`exists_closing`), and among tokens it is the one that is found by
counting braces (`closing?_eq`).
-/

namespace GridBots

theorem Item.width_eq_zero_or_one (item : Item) : item.width = 0 ∨ item.width = 1 := by
  cases item with
  | closing | label _ | namelessLabel => exact .inl rfl
  | opening | operation _ | operand _ _ => exact .inr rfl

namespace Block

/-! ## Pieces one after the other -/

theorem length_ofPieces (index : Nat) (pieces : List Piece) :
    (ofPieces index pieces).length = Piece.openings pieces := by
  induction pieces generalizing index with
  | nil => rfl
  | cons p pieces ih =>
    rw [ofPieces, Piece.openings_cons]
    by_cases hp : p.item = .opening
    · rw [if_pos hp, if_pos hp, List.length_cons, ih]
    · rw [if_neg hp, if_neg hp, ih, Nat.add_zero]

/-- The blocks that are opened among later pieces come after those that are opened
    among the pieces before. -/
theorem drop_ofPieces (index : Nat) (pre post : List Piece) :
    (ofPieces index (pre ++ post)).drop (Piece.openings pre) =
      ofPieces (index + tokenCount pre) post := by
  induction pre generalizing index with
  | nil => rfl
  | cons p pre ih =>
    rw [List.cons_append, ofPieces, Piece.openings_cons, tokenCount, ← Nat.add_assoc]
    by_cases hp : p.item = .opening
    · rw [if_pos hp, if_pos hp, List.drop_succ_cons, ih, hp]
      rfl
    · rw [if_neg hp, if_neg hp, Nat.add_zero, ih]

/-- The block that a brace opens. -/
theorem getElem?_ofPieces (index line : Nat) (pre post : List Piece) :
    (ofPieces index (pre ++ ⟨.opening, line⟩ :: post))[Piece.openings pre]? =
      some (openedAt (index + tokenCount pre) post) := by
  have h := drop_ofPieces index pre (⟨.opening, line⟩ :: post)
  rw [← Nat.add_zero (Piece.openings pre), ← List.getElem?_drop, h]
  rfl

theorem widthOf_inside_le (depth : Nat) (pieces : List Piece) :
    widthOf (inside depth pieces) ≤ widthOf pieces := by
  have hcons : ∀ (p : Piece) {l l' : List Piece}, widthOf l ≤ widthOf l' →
      widthOf (p :: l) ≤ widthOf (p :: l') := fun p _ _ h => Nat.add_le_add_left h p.item.width
  induction pieces generalizing depth with
  | nil => exact Nat.le_refl 0
  | cons p pieces ih =>
    obtain ⟨item, line⟩ := p
    cases item with
    | opening => exact hcons _ (ih (depth + 1))
    | closing =>
      cases depth with
      | zero => exact Nat.zero_le _
      | succ depth => exact hcons _ (ih depth)
    | label _ | namelessLabel | operation _ | operand _ _ => exact hcons _ (ih depth)

/-- A block is not wider than the pieces that it is opened among. -/
theorem width_le_of_mem {index : Nat} {pieces : List Piece} {b : Block}
    (h : b ∈ ofPieces index pieces) : b.width ≤ widthOf pieces := by
  induction pieces generalizing index with
  | nil => exact absurd h List.not_mem_nil
  | cons p pieces ih =>
    rw [ofPieces] at h
    split at h
    · rcases List.mem_cons.1 h with rfl | h
      · exact Nat.le_trans (widthOf_inside_le 0 pieces) (Nat.le_add_left _ _)
      · exact Nat.le_trans (ih h) (Nat.le_add_left _ _)
    · exact Nat.le_trans (ih h) (Nat.le_add_left _ _)

/-! ## Braces without faults -/

variable {count depth index : Nat} {unclosed : List Nat}

/-- If nothing is wrong with pieces, nothing is wrong with the last of them. -/
theorem firstFault?_of_append {pre post : List Piece}
    (h : firstFault? count unclosed (pre ++ post) = none) :
    ∃ count unclosed, firstFault? count unclosed post = none := by
  induction pre generalizing count unclosed with
  | nil => exact ⟨count, unclosed, h⟩
  | cons p pre ih =>
    obtain ⟨item, line⟩ := p
    rw [List.cons_append] at h
    cases item with
    | opening =>
      rw [firstFault?] at h
      split at h
      · simp at h
      · exact ih h
    | closing =>
      cases unclosed with
      | nil => cases h
      | cons _ _ => exact ih h
    | namelessLabel => cases h
    | label _ => exact ih h
    | operation _ => exact ih h
    | operand _ _ => exact ih h

/-- If nothing is wrong with pieces, a brace that opens a block is closed later. -/
theorem firstFault?_of_opening {line : Nat} {post : List Piece}
    (h : firstFault? count unclosed (⟨.opening, line⟩ :: post) = none) :
    firstFault? (count + 1) (line :: unclosed) post = none := by
  rw [firstFault?] at h
  split at h
  · simp at h
  · exact h

/-- What is inside a block is followed by the brace that closes it. -/
theorem exists_closing {pieces : List Piece} (h : firstFault? count unclosed pieces = none)
    (hd : depth < unclosed.length) :
    ∃ line rest, pieces = inside depth pieces ++ ⟨.closing, line⟩ :: rest := by
  induction pieces generalizing count unclosed depth with
  | nil =>
    -- A block is open at the end, which is a fault.
    cases unclosed with
    | nil => exact absurd hd (Nat.not_lt_zero _)
    | cons _ _ => cases h
  | cons p pieces ih =>
    obtain ⟨item, line⟩ := p
    cases item with
    | opening =>
      obtain ⟨l, rest, hr⟩ := ih (firstFault?_of_opening h) (Nat.succ_lt_succ hd)
      exact ⟨l, rest, congrArg _ hr⟩
    | closing =>
      cases unclosed with
      | nil => cases h
      | cons _ unclosed =>
        cases depth with
        | zero => exact ⟨line, pieces, rfl⟩
        | succ depth =>
          have hd' : depth < unclosed.length := Nat.lt_of_succ_lt_succ hd
          obtain ⟨l, rest, hr⟩ := ih h hd'
          exact ⟨l, rest, congrArg _ hr⟩
    | namelessLabel => cases h
    | label _ | operation _ | operand _ _ =>
      obtain ⟨l, rest, hr⟩ := ih h hd
      exact ⟨l, rest, congrArg _ hr⟩

/-- The brace that closes a block is found by counting the braces among tokens. -/
theorem closing?_eq {tokens : List Token}
    (h : firstFault? count unclosed (Piece.ofTokens tokens) = none) (hd : depth < unclosed.length) :
    Token.closing? depth index tokens =
      some (index + tokenCount (inside depth (Piece.ofTokens tokens))) := by
  induction tokens using Piece.ofTokens.induct generalizing count unclosed depth index with
  | case1 =>
    cases unclosed with
    | nil => exact absurd hd (Nat.not_lt_zero _)
    | cons _ _ => cases h
  | case2 t ht =>
    -- A label without a name is a fault.
    rw [Piece.ofTokens, if_pos ht] at h
    cases h
  | case3 t ht name rest hn ih =>
    -- Neither the label nor its name is a brace.
    rw [Piece.ofTokens_label ht hn] at h ⊢
    obtain ⟨ho, hc⟩ := Piece.text_ne_of_isLabel ht
    obtain ⟨ho', hc'⟩ := Piece.text_ne_of_canBeName hn
    rw [Piece.closing?_of_ne ho hc, Piece.closing?_of_ne ho' hc', ih h hd, Nat.add_assoc,
      Nat.add_assoc, ← Nat.add_assoc 1 1]
    rfl
  | case4 t ht name rest hn ih =>
    rw [Piece.ofTokens_namelessLabel ht hn] at h
    cases h
  | case5 t rest ht ih =>
    rw [Piece.ofTokens_cons ht] at h ⊢
    rcases Piece.ofToken_cases t with ⟨ho, hp⟩ | ⟨hc, hp⟩ | ⟨ho, hc, ⟨op, _, hp⟩ | ⟨_, hp⟩⟩ <;>
      rw [hp] at h ⊢
    · rw [Piece.closing?_of_blockOpen ho, ih (firstFault?_of_opening h) (Nat.succ_lt_succ hd),
        Nat.add_assoc]
      rfl
    · cases unclosed with
      | nil => cases h
      | cons _ unclosed =>
        cases depth with
        | zero => exact Piece.closing?_zero hc
        | succ depth =>
          have hd' : depth < unclosed.length := Nat.lt_of_succ_lt_succ hd
          rw [Piece.closing?_succ hc, ih h hd', Nat.add_assoc]
          rfl
    · rw [Piece.closing?_of_ne ho hc, ih h hd, Nat.add_assoc]
      rfl
    · rw [Piece.closing?_of_ne ho hc, ih h hd, Nat.add_assoc]
      rfl

end Block

namespace Layout

open Block (widthOf)
open Piece (openings)

/-! ## Slots -/

/-- The number of words that a layout has for tokens. The widths of blocks, which
    stand in some of the words, have no influence on it. -/
def emitted (tokens : List Token) : Nat :=
  (ofPieces [] (Piece.ofTokens tokens)).slots.length

theorem length_slots_ofPieces (widths : List Nat) (pieces : List Piece) :
    (ofPieces widths pieces).slots.length = widthOf pieces := by
  induction pieces generalizing widths with
  | nil => rfl
  | cons p pieces ih =>
    obtain ⟨item, line⟩ := p
    rw [widthOf, Nat.add_comm]
    cases item with
    | opening => exact congrArg Nat.succ (ih _)
    | closing => exact ih _
    | label _ => exact ih _
    | namelessLabel => exact ih _
    | operation _ => exact congrArg Nat.succ (ih _)
    | operand _ _ => exact congrArg Nat.succ (ih _)

theorem emitted_eq_widthOf (tokens : List Token) :
    emitted tokens = widthOf (Piece.ofTokens tokens) :=
  length_slots_ofPieces _ _

/-- The layout of later pieces comes after that of the pieces before, which has as
    many slots as these pieces are wide. The blocks opened before have taken their
    widths. -/
theorem exists_ofPieces_append (widths : List Nat) (pre post : List Piece) :
    ∃ before, ofPieces widths (pre ++ post) = before ++ ofPieces (widths.drop (openings pre)) post ∧
      before.slots.length = widthOf pre := by
  induction pre generalizing widths with
  | nil => exact ⟨[], rfl, rfl⟩
  | cons p pre ih =>
    obtain ⟨item, line⟩ := p
    rw [Piece.openings_cons, widthOf, Nat.add_comm (Item.width _)]
    cases item with
    | opening =>
      obtain ⟨before, h, hl⟩ := ih widths.tail
      rw [List.drop_tail] at h
      exact ⟨.slot (.skip (widths.headD 0)) line :: before, congrArg _ h, congrArg Nat.succ hl⟩
    | closing => exact ih widths
    | label name =>
      obtain ⟨before, h, hl⟩ := ih widths
      exact ⟨.label name line :: before, congrArg _ h, hl⟩
    | namelessLabel => exact ih widths
    | operation op =>
      obtain ⟨before, h, hl⟩ := ih widths
      exact ⟨_ :: before, congrArg _ h, congrArg Nat.succ hl⟩
    | operand text immediate =>
      obtain ⟨before, h, hl⟩ := ih widths
      exact ⟨.slot (.operand text) line :: before, congrArg _ h, congrArg Nat.succ hl⟩

theorem drop_slots_ofPieces (widths : List Nat) (pre post : List Piece) :
    (ofPieces widths (pre ++ post)).slots.drop (widthOf pre) =
      (ofPieces (widths.drop (openings pre)) post).slots := by
  obtain ⟨before, h, hl⟩ := exists_ofPieces_append widths pre post
  rw [h, slots_append, ← hl, List.drop_left]

variable (pre post : List Piece) (line : Nat)

/-- The widths of the blocks of a program, in the order in which they are opened. -/
abbrev widths (pieces : List Piece) : List Nat :=
  (Block.ofPieces 0 pieces).map Block.width

theorem drop_slots_widths :
    (ofPieces (widths (pre ++ post)) (pre ++ post)).slots.drop (widthOf pre) =
      (ofPieces ((Block.ofPieces (Block.tokenCount pre) post).map Block.width) post).slots := by
  rw [drop_slots_ofPieces, ← List.map_drop, Block.drop_ofPieces, Nat.zero_add]

/-- The word that a brace becomes says how wide its block is. -/
theorem getElem?_slots_opening :
    (ofPieces (widths (pre ++ ⟨.opening, line⟩ :: post))
      (pre ++ ⟨.opening, line⟩ :: post)).slots[widthOf pre]? =
      some (.skip (widthOf (Block.inside 0 post)), line) := by
  rw [← Nat.add_zero (widthOf pre), ← List.getElem?_drop, drop_slots_widths]
  rfl

/-- The word that an opcode becomes is the header of its instruction. -/
theorem getElem?_slots_operation (op : Opcode) :
    (ofPieces (widths (pre ++ ⟨.operation op, line⟩ :: post))
      (pre ++ ⟨.operation op, line⟩ :: post)).slots[widthOf pre]? =
      some (.instruction (Header.ofFlags op (operandFlags post)), line) := by
  rw [← Nat.add_zero (widthOf pre), ← List.getElem?_drop, drop_slots_widths]
  rfl

/-- The word that an operand becomes. -/
theorem getElem?_slots_operand (text : String) (immediate : Bool) :
    (ofPieces (widths (pre ++ ⟨.operand text immediate, line⟩ :: post))
      (pre ++ ⟨.operand text immediate, line⟩ :: post)).slots[widthOf pre]? =
      some (.operand text, line) := by
  rw [← Nat.add_zero (widthOf pre), ← List.getElem?_drop, drop_slots_widths]
  rfl

/-! ## Counts of blocks -/

/-- Whether a word will be the number of words of a block. -/
def isSkip : Slot → Bool
  | .skip _ => true
  | _ => false

/-- How many of the words to be are numbers of words of blocks. -/
def skips (slots : List (Slot × Nat)) : Nat :=
  slots.countP fun s => isSkip s.1

theorem skips_slots_ofPieces (widths : List Nat) (pieces : List Piece) :
    skips (ofPieces widths pieces).slots = openings pieces := by
  induction pieces generalizing widths with
  | nil => rfl
  | cons p pieces ih =>
    obtain ⟨item, line⟩ := p
    rw [Piece.openings_cons]
    cases item with
    | opening => exact (List.countP_cons_of_pos rfl).trans (congrArg Nat.succ (ih _))
    | closing => exact ih _
    | label _ => exact ih _
    | namelessLabel => exact ih _
    | operation _ => exact (List.countP_cons_of_neg Bool.false_ne_true).trans (ih _)
    | operand _ _ => exact (List.countP_cons_of_neg Bool.false_ne_true).trans (ih _)

/-- Before the slots of later pieces, there is a number for each block opened before. -/
theorem skips_take_slots_ofPieces (widths : List Nat) :
    skips ((ofPieces widths (pre ++ post)).slots.take (widthOf pre)) = openings pre := by
  have h := congrArg skips
    (List.take_append_drop (widthOf pre) (ofPieces widths (pre ++ post)).slots)
  rw [drop_slots_ofPieces, skips, List.countP_append, ← skips, ← skips, skips_slots_ofPieces,
    skips_slots_ofPieces, Piece.openings_append] at h
  exact Nat.add_right_cancel h

end Layout

end GridBots
