import GridBots.Assembly.Layout
import GridBots.Proofs.Nesting
import Mathlib.Data.List.Basic

/-!
# Pieces and their places

What is wrong with a layout, and where its words are, can be said of the pieces of a
program without the places before them. An instruction takes its operands from the
pieces that follow, so that its header is known from these (`operandFlags`), and a
layout from the pieces and the widths of the blocks (`Layout.ofPieces`). The first
fault is met by going through the pieces with the room that is left, and with the
number of operands of the last instruction (`Layout.firstFault?`).

A program has this layout if it has no such fault, and else is refused with the first
(`Layout.place_eq`). For the headers that are completed in their places come to be
those that the pieces say (`Layout.pushAt`, `Layout.placeFrom_eq`).
-/

namespace GridBots

/-- For each operand of an instruction, whether it is immediate, where the
    pieces are those after its opcode. -/
def operandFlags : List Piece → List Bool
  | [] => []
  | p :: rest =>
    match p.item with
    | .operand _ immediate => immediate :: operandFlags rest
    | .opening => [true]
    | _ => []

/-- A place with operands recorded in its header, if it is one. -/
def Placed.push (flags : List Bool) : Placed → Placed
  | .slot (.instruction h) line => .slot (.instruction (flags.foldl Header.push h)) line
  | p => p

theorem Placed.push_nil : push [] = id := by
  funext p
  obtain ⟨_ | _ | _, _⟩ | _ := p <;> rfl

theorem Placed.push_comp (flags more : List Bool) :
    push more ∘ push flags = push (flags ++ more) := by
  funext p
  obtain ⟨h | _ | _, line⟩ | _ := p
  · exact congrArg (fun h => slot (.instruction h) line) List.foldl_append.symm
  · rfl
  · rfl
  · rfl

namespace Layout

/-- The instruction whose operands are being read. -/
structure Pending where
  /-- The line of its opcode. -/
  line : Nat
  /-- The number of its operands so far. -/
  operands : Nat

/-- Whether an instruction has no room for one more operand, and the fault that it is. -/
def Pending.fault? (p : Pending) : Option AssemblyError :=
  if p.operands < Header.maxOperands then none else some ⟨.tooManyOperands, p.line⟩

/-- The instruction with one more operand. -/
def Pending.more (p : Pending) : Pending :=
  { p with operands := p.operands + 1 }

/-- The first thing that is wrong with the layout of pieces, where widths of
    `blocks` blocks are known, `room` places are free, and `pending?` is the
    instruction that the next operand belongs to. -/
def firstFault? (blocks room : Nat) (pending? : Option Pending) :
    List Piece → Option AssemblyError
  | [] => none
  | ⟨.opening, line⟩ :: rest =>
    if blocks = 0 then some ⟨.braceMismatch, line⟩
    else (pending?.bind Pending.fault?) <|>
      if room = 0 then some ⟨.tooManyTokens, line⟩
      else firstFault? (blocks - 1) (room - 1) none rest
  | ⟨.closing, _⟩ :: rest => firstFault? blocks room none rest
  | ⟨.label _, line⟩ :: rest =>
    if room = 0 then some ⟨.tooManyTokens, line⟩
    else firstFault? blocks (room - 1) none rest
  | ⟨.namelessLabel, line⟩ :: _ => some ⟨.malformedLabel, line⟩
  | ⟨.operation _, line⟩ :: rest =>
    if room = 0 then some ⟨.tooManyTokens, line⟩
    else firstFault? blocks (room - 1) (some ⟨line, 0⟩) rest
  | ⟨.operand _ _, line⟩ :: rest =>
    (pending?.bind Pending.fault?) <|>
      if room = 0 then some ⟨.tooManyTokens, line⟩
      else firstFault? blocks (room - 1) (pending?.map Pending.more) rest

/-- The first thing that is wrong with the layout of a program that has as many
    blocks as given. -/
def fault? (pieces : List Piece) (blocks : Nat) : Option AssemblyError :=
  firstFault? blocks cap none pieces

/-- The layout of pieces, where `widths` are those of the blocks in the order in
    which they are opened. -/
def ofPieces (widths : List Nat) : List Piece → Layout
  | [] => []
  | ⟨.opening, line⟩ :: rest =>
    .slot (.skip (widths.headD 0)) line :: ofPieces widths.tail rest
  | ⟨.closing, _⟩ :: rest => ofPieces widths rest
  | ⟨.label name, line⟩ :: rest => .label name line :: ofPieces widths rest
  | ⟨.namelessLabel, _⟩ :: rest => ofPieces widths rest
  | ⟨.operation op, line⟩ :: rest =>
    .slot (.instruction (Header.ofFlags op (operandFlags rest))) line :: ofPieces widths rest
  | ⟨.operand text _, line⟩ :: rest => .slot (.operand text) line :: ofPieces widths rest

/-! ## Headers in their places -/

/-- The layout with operands recorded in the header at a place, if there is one. -/
def pushAt (placed : Layout) (current? : Option Nat) (flags : List Bool) : Layout :=
  match current? with
  | none => placed
  | some current => placed.modify current (Placed.push flags)

/-- The instruction at a place, if there is one. -/
def pendingAt? (placed : Layout) (current? : Option Nat) : Option Pending :=
  match current?.bind (placed[·]?) with
  | some (.slot (.instruction h) line) => some ⟨line, h.operandCount⟩
  | _ => none

variable {placed : Layout} {current? : Option Nat} {flags : List Bool} {immediate : Bool}

theorem pushAt_nil : placed.pushAt current? [] = placed := by
  cases current? with
  | none => rfl
  | some current => rw [pushAt, Placed.push_nil, List.modify_id]

theorem pushAt_pushAt (flags more : List Bool) :
    (placed.pushAt current? flags).pushAt current? more =
      placed.pushAt current? (flags ++ more) := by
  cases current? with
  | none => rfl
  | some current => rw [pushAt, pushAt, pushAt, List.modify_modify_eq, Placed.push_comp]

theorem length_pushAt : (placed.pushAt current? flags).length = placed.length := by
  cases current? with
  | none => rfl
  | some current => exact List.length_modify _ _ _

theorem pushAt_append (h : ∀ current ∈ current?, current < placed.length) (l : Layout) :
    (placed ++ l).pushAt current? flags = placed.pushAt current? flags ++ l := by
  cases current? with
  | none => rfl
  | some current => exact modify_append_of_lt (h current rfl) l _

theorem pendingAt?_append (h : ∀ current ∈ current?, current < placed.length) (l : Layout) :
    (placed ++ l).pendingAt? current? = placed.pendingAt? current? := by
  cases current? with
  | none => rfl
  | some current =>
    rw [pendingAt?, pendingAt?, Option.bind_some, Option.bind_some,
      List.getElem?_append_left (h current rfl)]

/-- An instruction that has been placed last has no operands yet. -/
theorem pendingAt?_instruction (placed : Layout) (op : Opcode) (line : Nat) :
    pendingAt? (placed ++ [.slot (.instruction (Header.new op)) line]) (some placed.length) =
      some ⟨line, 0⟩ := by
  rw [pendingAt?, Option.bind_some, List.getElem?_concat_length]
  rfl

theorem pushAt_instruction (placed : Layout) (op : Opcode) (line : Nat) (flags : List Bool) :
    pushAt (placed ++ [.slot (.instruction (Header.new op)) line]) (some placed.length) flags =
      placed ++ [.slot (.instruction (Header.ofFlags op flags)) line] :=
  modify_length_append placed _ [] _

/-- An operand is recorded, unless there is no room for it in the header. -/
theorem addOperand_eq (placed : Layout) (current? : Option Nat) (immediate : Bool) :
    placed.addOperand current? immediate =
      unlessFault ((placed.pendingAt? current?).bind Pending.fault?)
        (placed.pushAt current? [immediate]) := by
  cases current? with
  | none => rfl
  | some current =>
    rw [addOperand, pendingAt?, Option.bind_some, pushAt, List.modify_eq_set_getElem?]
    cases hp : placed[current]? with
    | none => rfl
    | some p =>
      -- A place that is no header stays as it is.
      have hset : placed.set current p = placed := by
        obtain ⟨_, rfl⟩ := List.getElem?_eq_some_iff.1 hp
        exact List.set_getElem_self _
      obtain ⟨h | _ | _, line⟩ | _ := p
      · dsimp only [Option.bind_some]
        rw [Pending.fault?]
        by_cases hc : h.operandCount < Header.maxOperands
        · rw [Header.push?_of_lt hc, if_pos hc]
          rfl
        · rw [Header.push?, if_neg hc, if_neg hc]
          rfl
      · exact congrArg _ hset.symm
      · exact congrArg _ hset.symm
      · exact congrArg _ hset.symm

/-- An instruction with one more operand recorded is the one with one more operand. -/
theorem pendingAt?_pushAt (h : (placed.pendingAt? current?).bind Pending.fault? = none) :
    (placed.pushAt current? [immediate]).pendingAt? current? =
      (placed.pendingAt? current?).map Pending.more := by
  cases current? with
  | none => rfl
  | some current =>
    rw [pendingAt?, Option.bind_some] at h ⊢
    rw [pushAt, pendingAt?, Option.bind_some, List.getElem?_modify_eq]
    cases hp : placed[current]? with
    | none => rfl
    | some p =>
      obtain ⟨header | _ | _, line⟩ | _ := p
      · rw [hp] at h
        dsimp only [Option.bind_some] at h
        rw [Pending.fault?] at h
        split at h
        · next hc =>
          have hcount : (header.push immediate).operandCount = header.operandCount + 1 := by
            rw [Header.operandCount_push, if_pos hc]
          exact congrArg (fun n => some (⟨line, n⟩ : Pending)) hcount
        · cases h
      · rfl
      · rfl
      · rfl

/-! ## The layout of a program -/

variable {blocks : List Block}

theorem room_append (p : Placed) : cap - (placed ++ [p]).length = cap - placed.length - 1 := by
  rw [List.length_append, List.length_singleton, Nat.sub_sub]

/-- After a place is added, the layout goes on, if there was room for it. -/
theorem add_bind {p : Placed} {next : Layout → Except AssemblyError Layout} {result : Layout}
    {fault? : Option AssemblyError}
    (h : next (placed ++ [p]) = unlessFault fault? result) :
    (placed.add p >>= next) =
      unlessFault (if cap - placed.length = 0 then some ⟨.tooManyTokens, p.line⟩ else fault?)
        result := by
  rw [add]
  by_cases hc : cap ≤ placed.length
  · rw [if_pos hc, if_pos (Nat.sub_eq_zero_of_le hc)]
    rfl
  · rw [if_neg hc, if_neg (mt Nat.sub_eq_zero_iff_le.1 hc)]
    exact h

/-- After an operand is recorded and placed, the layout goes on, if there was room for it in the
    header and in the layout. -/
theorem addOperand_bind {p : Placed} {next : Layout → Except AssemblyError Layout}
    {result : Layout} {fault? : Option AssemblyError}
    (h : (placed.pendingAt? current?).bind Pending.fault? = none →
      next (placed.pushAt current? [immediate] ++ [p]) = unlessFault fault? result) :
    (do let l ← placed.addOperand current? immediate
        let l ← l.add p
        next l) =
      unlessFault ((placed.pendingAt? current?).bind Pending.fault? <|>
        if cap - placed.length = 0 then some ⟨.tooManyTokens, p.line⟩ else fault?) result := by
  rw [addOperand_eq]
  cases hf : (placed.pendingAt? current?).bind Pending.fault? with
  | some e => rfl
  | none =>
    have hadd := add_bind (h hf)
    rw [length_pushAt] at hadd
    exact hadd

/-- A layout is completed with the places that the pieces after it have, and with their operands
    in the header of the instruction that is being read. -/
theorem placeFrom_eq (h : ∀ current ∈ current?, current < placed.length) (pieces : List Piece) :
    placeFrom current? blocks placed pieces =
      unlessFault
        (firstFault? blocks.length (cap - placed.length) (placed.pendingAt? current?) pieces)
        (placed.pushAt current? (operandFlags pieces) ++
          ofPieces (blocks.map Block.width) pieces) := by
  induction pieces generalizing current? blocks placed with
  | nil =>
    have hlayout : placed = placed.pushAt current? [] ++ [] := by
      rw [pushAt_nil, List.append_nil]
    exact congrArg _ hlayout
  | cons p pieces ih =>
    obtain ⟨item, line⟩ := p
    have hnone : ∀ {l : Layout}, ∀ current ∈ (none : Option Nat), current < l.length := by simp
    have hcons : ∀ (l l' : Layout) (p : Placed), l ++ [p] ++ l' = l ++ p :: l' :=
      fun l l' p => List.append_assoc l [p] l'
    -- No more operands are read of the instruction before a label or another instruction.
    have hplaced : placed.pushAt current? [] = placed := pushAt_nil
    cases item with
    | opening =>
      cases blocks with
      | nil => rfl
      | cons b blocks =>
        rw [placeFrom, firstFault?, List.length_cons, if_neg (Nat.succ_ne_zero _)]
        refine addOperand_bind fun _ => ?_
        rw [ih hnone, room_append, length_pushAt]
        exact congrArg _ (hcons _ _ _)
    | closing =>
      rw [placeFrom, ih hnone]
      exact congrArg (fun l => unlessFault _ (l ++ _)) hplaced.symm
    | label name =>
      rw [placeFrom, firstFault?]
      refine add_bind ?_
      rw [ih hnone, room_append]
      refine congrArg _ ((hcons _ _ _).trans ?_)
      exact congrArg (· ++ _) hplaced.symm
    | namelessLabel => rfl
    | operation op =>
      rw [placeFrom, firstFault?]
      refine add_bind ?_
      rw [List.length_append, List.length_singleton, Nat.add_sub_cancel, ih (by simp), room_append,
        pendingAt?_instruction, pushAt_instruction]
      refine congrArg _ ((hcons _ _ _).trans ?_)
      exact congrArg (· ++ _) hplaced.symm
    | operand text immediate =>
      have hlt : ∀ current ∈ current?, current < (placed.pushAt current? [immediate]).length := by
        rwa [length_pushAt]
      rw [placeFrom, firstFault?]
      refine addOperand_bind fun hfault => ?_
      rw [ih fun current hcurrent => ?_, room_append, length_pushAt, pendingAt?_append hlt,
        pendingAt?_pushAt hfault, pushAt_append hlt, pushAt_pushAt]
      · exact congrArg _ (hcons _ _ _)
      · rw [List.length_append]
        exact Nat.lt_add_right _ (hlt current hcurrent)

/-- A program has the layout that its pieces say, unless something is wrong with it. -/
theorem place_eq (pieces : List Piece) (blocks : List Block) :
    place pieces blocks =
      unlessFault (fault? pieces blocks.length) (ofPieces (blocks.map Block.width) pieces) :=
  placeFrom_eq (by simp) pieces

theorem place_eq_ok_iff {pieces : List Piece} {blocks : List Block} {l : Layout} :
    place pieces blocks = .ok l ↔
      fault? pieces blocks.length = none ∧ ofPieces (blocks.map Block.width) pieces = l := by
  rw [place_eq]
  exact unlessFault_eq_ok_iff

theorem place_eq_error_iff {pieces : List Piece} {blocks : List Block} {e : AssemblyError} :
    place pieces blocks = .error e ↔ fault? pieces blocks.length = some e := by
  rw [place_eq]
  exact unlessFault_eq_error_iff

end Layout

end GridBots
