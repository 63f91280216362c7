import GridBots.Assembly.Block

/-!
# Blocks in blocks

What is wrong with braces and labels, and where the blocks are, can be said of the
pieces of a program without the blocks that have been found so far. The first fault
is met by going through the pieces with a list of the lines on which the blocks that
are open were opened (`firstFault?`). A block holds the pieces that are `inside` it,
before the brace that closes it, and has their number of tokens and of words; the
blocks of a program are those that its pieces open, each taken by itself
(`ofPieces`).

A program has these blocks if it has no such fault, and else is refused with the first
(`find_eq`). For when a block is closed, the fault in the pieces after its opening
brace is the one in those after its closing brace, and so are the blocks, but for
those in between (`Closes`, `closes_of_close`).
-/

namespace GridBots

/-- A result, unless there is a fault. -/
def unlessFault {α : Type} (fault? : Option AssemblyError) (result : α) : Except AssemblyError α :=
  match fault? with
  | some e => .error e
  | none => .ok result

theorem unlessFault_eq_ok_iff {α : Type} {fault? : Option AssemblyError} {a b : α} :
    unlessFault fault? a = .ok b ↔ fault? = none ∧ a = b := by
  cases fault? with
  | none => exact ⟨fun h => ⟨rfl, Except.ok.inj h⟩, fun h => congrArg _ h.2⟩
  | some e => exact ⟨fun h => (nomatch h), fun h => (nomatch h.1)⟩

theorem unlessFault_eq_error_iff {α : Type} {fault? : Option AssemblyError} {a : α}
    {e : AssemblyError} : unlessFault fault? a = .error e ↔ fault? = some e := by
  cases fault? with
  | none => exact ⟨fun h => (nomatch h), fun h => (nomatch h)⟩
  | some e' =>
    exact ⟨fun h => congrArg _ (Except.error.inj h), fun h => congrArg _ (Option.some.inj h)⟩

theorem modify_append_of_lt {α : Type} {l : List α} {i : Nat} (h : i < l.length) (l' : List α)
    (f : α → α) : (l ++ l').modify i f = l.modify i f ++ l' := by
  induction l generalizing i with
  | nil => exact absurd h (Nat.not_lt_zero i)
  | cons a l ih =>
    cases i with
    | zero => rfl
    | succ i => exact congrArg (a :: ·) (ih (Nat.lt_of_succ_lt_succ h))

theorem modify_length_append {α : Type} (l : List α) (a : α) (l' : List α) (f : α → α) :
    (l ++ a :: l').modify l.length f = l ++ f a :: l' := by
  induction l with
  | nil => rfl
  | cons b l ih => exact congrArg (b :: ·) ih

namespace Block

/-- The first thing that is wrong with the braces and labels of pieces, if
    `count` blocks have been opened before them, and those opened on the lines
    `unclosed`, the innermost first, have not been closed. -/
def firstFault? (count : Nat) (unclosed : List Nat) : List Piece → Option AssemblyError
  | [] => unclosed.head?.map fun line => ⟨.braceMismatch, line⟩
  | ⟨.opening, line⟩ :: rest =>
    if cap ≤ count then some ⟨.tooManySymbols, line⟩
    else firstFault? (count + 1) (line :: unclosed) rest
  | ⟨.closing, line⟩ :: rest =>
    match unclosed with
    | [] => some ⟨.braceMismatch, line⟩
    | _ :: unclosed => firstFault? count unclosed rest
  | ⟨.namelessLabel, line⟩ :: _ => some ⟨.malformedLabel, line⟩
  | ⟨.label _, _⟩ :: rest => firstFault? count unclosed rest
  | ⟨.operation _, _⟩ :: rest => firstFault? count unclosed rest
  | ⟨.operand _ _, _⟩ :: rest => firstFault? count unclosed rest

/-- The first thing that is wrong with the braces and labels of a program. -/
def fault? (pieces : List Piece) : Option AssemblyError :=
  firstFault? 0 [] pieces

/-- The pieces before the brace that closes a block, where `depth` inner blocks
    have still to be closed before. -/
def inside (depth : Nat) : List Piece → List Piece
  | [] => []
  | p :: rest =>
    match p.item with
    | .opening => p :: inside (depth + 1) rest
    | .closing =>
      match depth with
      | 0 => []
      | depth + 1 => p :: inside depth rest
    | _ => p :: inside depth rest

/-- The number of tokens of pieces. -/
def tokenCount : List Piece → Nat
  | [] => 0
  | p :: rest => p.item.tokenCount + tokenCount rest

/-- The number of words that pieces become. -/
def widthOf : List Piece → Nat
  | [] => 0
  | p :: rest => p.item.width + widthOf rest

/-- The block that the token with an index opens, where `rest` are the pieces after it. -/
def openedAt (index : Nat) (rest : List Piece) : Block :=
  let content := inside 0 rest
  ⟨index, index + 1 + tokenCount content, widthOf content⟩

/-- The blocks opened among pieces, the first of which is the token with the
    given index. -/
def ofPieces (index : Nat) : List Piece → List Block
  | [] => []
  | p :: rest =>
    if p.item = .opening then openedAt index rest :: ofPieces (index + 1) rest
    else ofPieces (index + p.item.tokenCount) rest

/-! ## Pieces one after the other -/

theorem widthOf_append (pre post : List Piece) :
    widthOf (pre ++ post) = widthOf pre + widthOf post := by
  induction pre with
  | nil => exact (Nat.zero_add _).symm
  | cons p pre ih => rw [List.cons_append, widthOf, widthOf, ih, Nat.add_assoc]

theorem tokenCount_append (pre post : List Piece) :
    tokenCount (pre ++ post) = tokenCount pre + tokenCount post := by
  induction pre with
  | nil => exact (Nat.zero_add _).symm
  | cons p pre ih => rw [List.cons_append, tokenCount, tokenCount, ih, Nat.add_assoc]

/-! ## Blocks that are closed -/

variable {line slot width index : Nat} {blocks added : List Block} {pieces rest : List Piece}
  {e : AssemblyError}

theorem add_eq_ok : add line index blocks = .ok added ↔
    ¬cap ≤ blocks.length ∧ blocks ++ [⟨index, index, 0⟩] = added := by
  rw [add]
  split
  · next h =>
    refine ⟨fun hadd => ?_, fun hadd => absurd h hadd.1⟩
    cases hadd
  · next h => exact ⟨fun hadd => ⟨h, Except.ok.inj hadd⟩, fun hadd => congrArg _ hadd.2⟩

theorem add_eq_error : add line index blocks = .error e ↔
    cap ≤ blocks.length ∧ ⟨.tooManySymbols, line⟩ = e := by
  rw [add]
  split
  · next h => exact ⟨fun hadd => ⟨h, Except.error.inj hadd⟩, fun hadd => congrArg _ hadd.2⟩
  · next h =>
    refine ⟨fun hadd => ?_, fun hadd => absurd hadd.1 h⟩
    cases hadd

theorem firstFault?_opening (hadded : add line index blocks = .ok added) (outer : List Nat)
    (rest : List Piece) : firstFault? blocks.length outer (⟨.opening, line⟩ :: rest) =
      firstFault? added.length (line :: outer) rest := by
  obtain ⟨hcap, rfl⟩ := add_eq_ok.1 hadded
  rw [firstFault?, if_neg hcap, List.length_append, List.length_singleton]

theorem length_lt_of_add (hadded : add line index blocks = .ok added) :
    blocks.length < added.length := by
  obtain ⟨_, rfl⟩ := add_eq_ok.1 hadded
  rw [List.length_append]
  exact Nat.lt_succ_self _

/-- What is known when a block is closed follows from the pieces: from those inside the block for
    the block itself, and for what comes later from those after it. -/
structure Closes (line slot width index : Nat) (blocks : List Block) (c : Closed pieces) :
    Prop where
  /-- What is wrong is wrong after the block, whatever other blocks are open. -/
  fault_eq : ∀ outer, firstFault? blocks.length (line :: outer) pieces =
    firstFault? c.blocks.length outer c.rest
  /-- A brace closes the block, and is inside of each block around it. -/
  exists_inside : ∃ line, ∀ depth, inside (depth + 1) pieces =
    inside 0 pieces ++ ⟨.closing, line⟩ :: inside depth c.rest
  width_eq : c.width = width + widthOf (inside 0 pieces)
  next_eq : c.next = index + tokenCount (inside 0 pieces) + 1
  exists_blocks : ∃ later, ofPieces index pieces = later ++ ofPieces c.next c.rest ∧
    c.blocks = (blocks.modify slot fun b =>
      { b with closing := index + tokenCount (inside 0 pieces), width := c.width }) ++ later

/-- A block that is opened and closed is the one that its opening brace opens. -/
theorem Closes.exists_opened {c : Closed rest} (hadded : add line index blocks = .ok added)
    (h : Closes line blocks.length 0 (index + 1) added c) :
    ∃ later, c.blocks = blocks ++ openedAt index rest :: later ∧
      ofPieces index (⟨.opening, line⟩ :: rest) =
        openedAt index rest :: later ++ ofPieces c.next c.rest := by
  obtain ⟨_, rfl⟩ := add_eq_ok.1 hadded
  obtain ⟨later, hlater, hblocks⟩ := h.exists_blocks
  refine ⟨later, ?_, ?_⟩
  · rw [hblocks, modify_length_append, h.width_eq, Nat.zero_add, List.append_assoc]
    rfl
  · rw [ofPieces, if_pos rfl, hlater]
    rfl

/-- The blocks that have been opened before are still there. -/
theorem Closes.lt_length {c : Closed rest} (hadded : add line index blocks = .ok added)
    (h : Closes line blocks.length 0 (index + 1) added c) (hslot : slot < blocks.length) :
    slot < c.blocks.length := by
  obtain ⟨later, hlater, _⟩ := h.exists_opened hadded
  rw [hlater, List.length_append]
  exact Nat.lt_add_right _ hslot

theorem closes_closing (closing : Nat) (rest : List Piece) :
    @Closes (⟨.closing, closing⟩ :: rest) line slot width index blocks
      ⟨width, blocks.modify slot fun b => { b with closing := index, width := width }, index + 1,
        rest, Nat.lt_succ_self _⟩ where
  fault_eq outer := by
    rw [List.length_modify]
    rfl
  exists_inside := ⟨closing, fun _ => rfl⟩
  width_eq := rfl
  next_eq := rfl
  exists_blocks := ⟨[], rfl, (List.append_nil _).symm⟩

/-- A piece that is no brace is one more inside the block. -/
theorem Closes.cons {item : Item} {l : Nat} {c : Closed pieces}
    (h : Closes line slot (width + item.width) (index + item.tokenCount) blocks c)
    (ho : item ≠ .opening) (hc : item ≠ .closing) (hn : item ≠ .namelessLabel) :
    @Closes (⟨item, l⟩ :: pieces) line slot width index blocks (c.ofLe (Nat.le_succ _)) := by
  have hfault : ∀ unclosed, firstFault? blocks.length unclosed (⟨item, l⟩ :: pieces) =
      firstFault? blocks.length unclosed pieces := by
    cases item <;> first | exact absurd rfl ‹_› | exact fun _ => rfl
  have hinside : ∀ depth,
      inside depth (⟨item, l⟩ :: pieces) = ⟨item, l⟩ :: inside depth pieces := by
    cases item <;> first | exact absurd rfl ‹_› | exact fun _ => rfl
  obtain ⟨closing, hclosing⟩ := h.exists_inside
  obtain ⟨later, hlater, hblocks⟩ := h.exists_blocks
  refine ⟨fun outer => ?_, ⟨closing, fun depth => ?_⟩, ?_, ?_, later, ?_, ?_⟩
  · rw [hfault]
    exact h.fault_eq outer
  · rw [hinside, hinside, hclosing]
    rfl
  · rw [hinside, widthOf, ← Nat.add_assoc]
    exact h.width_eq
  · rw [hinside, tokenCount, ← Nat.add_assoc]
    exact h.next_eq
  · rw [ofPieces, if_neg ho]
    exact hlater
  · rw [hinside, tokenCount, ← Nat.add_assoc]
    exact hblocks

/-- A block that is closed is inside the block around it, with its braces. -/
theorem Closes.opening {inner : Nat} {c : Closed rest} {c' : Closed c.rest}
    (hadded : add inner index blocks = .ok added)
    (h : Closes inner blocks.length 0 (index + 1) added c)
    (h' : Closes line slot (width + c.width + 1) c.next c.blocks c') (hslot : slot < blocks.length)
    (hle : c.rest.length ≤ (⟨.opening, inner⟩ :: rest : List Piece).length) :
    Closes line slot width index blocks (c'.ofLe hle) := by
  obtain ⟨closing, hclosing⟩ := h.exists_inside
  obtain ⟨closing', hclosing'⟩ := h'.exists_inside
  obtain ⟨opened, hopened, hpieces⟩ := h.exists_opened hadded
  obtain ⟨later, hlater, hblocks⟩ := h'.exists_blocks
  have hinside : ∀ depth, inside depth (⟨.opening, inner⟩ :: rest) =
      ⟨.opening, inner⟩ :: inside 0 rest ++ ⟨.closing, closing⟩ :: inside depth c.rest :=
    fun depth => congrArg _ (hclosing depth)
  have hwidth : widthOf (inside 0 (⟨.opening, inner⟩ :: rest)) =
      c.width + 1 + widthOf (inside 0 c.rest) := by
    rw [hinside, widthOf_append, widthOf, widthOf, h.width_eq]
    simp only [Item.width]
    omega
  have hcount : index + tokenCount (inside 0 (⟨.opening, inner⟩ :: rest)) =
      c.next + tokenCount (inside 0 c.rest) := by
    rw [hinside, tokenCount_append, tokenCount, tokenCount, h.next_eq]
    simp only [Item.tokenCount]
    omega
  refine ⟨fun outer => ?_, ⟨closing', fun depth => ?_⟩, ?_, ?_,
    openedAt index rest :: opened ++ later, ?_, ?_⟩
  · rw [firstFault?_opening hadded, h.fault_eq]
    exact h'.fault_eq outer
  · rw [hinside, hinside, hclosing', List.append_assoc, List.cons_append]
    rfl
  · rw [hwidth]
    refine h'.width_eq.trans ?_
    omega
  · rw [hcount]
    exact h'.next_eq
  · rw [hpieces, hlater, List.append_assoc]
    rfl
  · rw [hcount]
    refine hblocks.trans ?_
    rw [hopened, modify_append_of_lt hslot, List.append_assoc]
    rfl

/-- A block that is closed is closed as its pieces say. -/
theorem closes_of_close {c : Closed pieces} (h : close line slot width index blocks pieces = .ok c)
    (hslot : slot < blocks.length) : Closes line slot width index blocks c := by
  induction line, slot, width, index, blocks, pieces using close.induct with
  | case1 | case5 =>
    rw [close] at h
    cases h
  | case2 line slot width index blocks inner rest ihinner ih =>
    rw [close, except_bind_eq_ok] at h
    obtain ⟨added, hadded, h⟩ := h
    obtain ⟨c, hc, h⟩ := except_bind_eq_ok.1 h
    obtain ⟨c', hc', h⟩ := except_bind_eq_ok.1 h
    cases h
    have hinner := ihinner added hc (length_lt_of_add hadded)
    exact hinner.opening hadded (ih c hc' (hinner.lt_length hadded hslot)) hslot _
  | case3 line slot width index blocks closing rest =>
    rw [close] at h
    cases h
    exact closes_closing closing rest
  | case4 _ _ _ _ _ _ _ _ ih | case6 _ _ _ _ _ _ _ _ ih | case7 _ _ _ _ _ _ _ _ _ ih =>
    rw [close] at h
    obtain ⟨c', hc', h⟩ := except_bind_eq_ok.1 h
    cases h
    exact (ih hc' hslot).cons (by simp) (by simp) (by simp)

/-- A block that cannot be closed has the first fault in it, whatever other blocks are open. -/
theorem fault_of_close (h : close line slot width index blocks pieces = .error e)
    (hslot : slot < blocks.length) (outer : List Nat) :
    firstFault? blocks.length (line :: outer) pieces = some e := by
  induction line, slot, width, index, blocks, pieces using close.induct generalizing outer with
  | case1 | case5 =>
    rw [close] at h
    cases h
    rfl
  | case2 line slot width index blocks inner rest ihinner ih =>
    -- The fault is that there are too many blocks, or it is in the inner block, or after it.
    rw [close] at h
    rcases except_bind_eq_error.1 h with h | ⟨added, hadded, h⟩
    · obtain ⟨hcap, rfl⟩ := add_eq_error.1 h
      rw [firstFault?, if_pos hcap]
    rw [firstFault?_opening hadded]
    rcases except_bind_eq_error.1 h with h | ⟨c, hc, h⟩
    · exact ihinner added h (length_lt_of_add hadded) (line :: outer)
    have hinner := closes_of_close hc (length_lt_of_add hadded)
    rw [hinner.fault_eq]
    rcases except_bind_eq_error.1 h with h | ⟨c', _, h⟩
    · exact ih c h (hinner.lt_length hadded hslot) outer
    · cases h
  | case3 =>
    rw [close] at h
    cases h
  | case4 _ _ _ _ _ _ _ _ ih | case6 _ _ _ _ _ _ _ _ ih | case7 _ _ _ _ _ _ _ _ _ ih =>
    rw [close] at h
    rcases except_bind_eq_error.1 h with h | ⟨c, _, h⟩
    · exact ih h hslot outer
    · cases h

/-! ## The blocks of a program -/

/-- To the blocks before are added those that the pieces open, unless something is wrong with
    these. -/
theorem findFrom_eq (index : Nat) (blocks : List Block) (pieces : List Piece) :
    findFrom index blocks pieces =
      unlessFault (firstFault? blocks.length [] pieces) (blocks ++ ofPieces index pieces) := by
  induction index, blocks, pieces using findFrom.induct with
  | case1 index blocks =>
    rw [findFrom]
    exact congrArg _ (List.append_nil blocks).symm
  | case2 index blocks line rest ih =>
    cases hadded : add line index blocks with
    | error e =>
      obtain ⟨hcap, rfl⟩ := add_eq_error.1 hadded
      rw [findFrom, hadded, firstFault?, if_pos hcap]
      rfl
    | ok added =>
      have hlt := length_lt_of_add hadded
      rw [firstFault?_opening hadded]
      cases hc : close line blocks.length 0 (index + 1) added rest with
      | error e =>
        rw [findFrom, fault_of_close hc hlt]
        simp only [hadded, hc, bind, Except.bind, unlessFault]
      | ok c =>
        have hcloses := closes_of_close hc hlt
        obtain ⟨later, hlater, hpieces⟩ := hcloses.exists_opened hadded
        have hblocks : c.blocks ++ ofPieces c.next c.rest =
            blocks ++ ofPieces index (⟨.opening, line⟩ :: rest) := by
          rw [hlater, hpieces, List.append_assoc]
        rw [findFrom, hcloses.fault_eq, ← hblocks]
        simp only [hadded, hc, bind, Except.bind, ih c]
  | case3 | case5 =>
    rw [findFrom]
    rfl
  | case4 _ _ _ _ _ ih | case6 _ _ _ _ _ ih | case7 _ _ _ _ _ _ ih =>
    rw [findFrom]
    exact ih

/-- A program has the blocks that its pieces open, unless something is wrong with them. -/
theorem find_eq (pieces : List Piece) :
    find pieces = unlessFault (fault? pieces) (ofPieces 0 pieces) :=
  findFrom_eq 0 [] pieces

theorem find_eq_ok_iff {pieces : List Piece} {blocks : List Block} :
    find pieces = .ok blocks ↔ fault? pieces = none ∧ ofPieces 0 pieces = blocks := by
  rw [find_eq]
  exact unlessFault_eq_ok_iff

theorem find_eq_error_iff {pieces : List Piece} {e : AssemblyError} :
    find pieces = .error e ↔ fault? pieces = some e := by
  rw [find_eq]
  exact unlessFault_eq_error_iff

end Block

end GridBots
