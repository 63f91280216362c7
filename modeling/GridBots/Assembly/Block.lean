import GridBots.Assembly.Error
import GridBots.Assembly.Piece

/-!
# Blocks

A *block* is what stands between a brace that opens and the brace that closes
it. A conditional instruction skips its block by counting words, so that the
*width* of a block is the number of words that it becomes: one for every opcode,
operand and inner block's opening brace in it, which becomes the count of words
to skip. Closing braces and labels become no words.

The blocks of a program are found in the order in which they are opened
(`Block.find`). A block that is opened takes its place among them at once, and
gets its end and its width when it is closed, after the blocks in it
(`Block.close`).
-/

namespace GridBots

/-- A block of a program. -/
structure Block where
  /-- The index of the token that opens it. -/
  opening : Nat
  /-- The index of the token that closes it. -/
  closing : Nat
  /-- The number of words that it becomes. -/
  width : Nat
  deriving DecidableEq, Repr

/-- The number of words that an item becomes. -/
def Item.width : Item → Nat
  | opening => 1
  | operation _ => 1
  | operand _ _ => 1
  | _ => 0

namespace Block

/-- The greatest number of blocks of a program. -/
def cap : Nat := 512

/-- The blocks and one more, which the token with an index opens and which is not closed yet. -/
def add (line index : Nat) (blocks : List Block) : Except AssemblyError (List Block) :=
  if cap ≤ blocks.length then .error ⟨.tooManySymbols, line⟩
  else .ok (blocks ++ [⟨index, index, 0⟩])

/-- What is known when a block is closed that is open at the beginning of pieces. -/
structure Closed (pieces : List Piece) where
  /-- The number of words of the block. -/
  width : Nat
  /-- The blocks that have been opened so far. -/
  blocks : List Block
  /-- The index of the token after the brace that closes the block. -/
  next : Nat
  /-- The pieces after this brace. -/
  rest : List Piece
  length_lt : rest.length < pieces.length

/-- What is known is so too of more pieces. -/
def Closed.ofLe {pieces rest : List Piece} (h : rest.length ≤ pieces.length) (c : Closed rest) :
    Closed pieces :=
  { c with length_lt := Nat.lt_of_lt_of_le c.length_lt h }

/-- Reads pieces up to the brace that closes a block, which was opened on a line, is the one at
    the place `slot` among the blocks, and has been `width` words wide so far. The pieces begin
    with the token that has the index. -/
def close (line slot width index : Nat) (blocks : List Block) :
    (pieces : List Piece) → Except AssemblyError (Closed pieces)
  | [] => .error ⟨.braceMismatch, line⟩
  | ⟨.opening, inner⟩ :: rest => do
    let added ← add inner index blocks
    let c ← close inner blocks.length 0 (index + 1) added rest
    -- The inner block has a word of its own in front, which will say how wide it is.
    let c' ← close line slot (width + c.width + 1) c.next c.blocks c.rest
    .ok (c'.ofLe (Nat.le_succ_of_le (Nat.le_of_lt c.length_lt)))
  | ⟨.closing, _⟩ :: rest =>
    .ok ⟨width, blocks.modify slot fun b => { b with closing := index, width := width }, index + 1,
      rest, Nat.lt_succ_self _⟩
  | ⟨.label _, _⟩ :: rest => do
    let c ← close line slot width (index + 2) blocks rest
    .ok (c.ofLe (Nat.le_succ _))
  | ⟨.namelessLabel, line⟩ :: _ => .error ⟨.malformedLabel, line⟩
  | ⟨.operation _, _⟩ :: rest => do
    let c ← close line slot (width + 1) (index + 1) blocks rest
    .ok (c.ofLe (Nat.le_succ _))
  | ⟨.operand _ _, _⟩ :: rest => do
    let c ← close line slot (width + 1) (index + 1) blocks rest
    .ok (c.ofLe (Nat.le_succ _))
termination_by pieces => pieces.length
decreasing_by
  all_goals first | exact Nat.lt_succ_self _ | exact Nat.lt_succ_of_lt c.length_lt

/-- The blocks, and those that are opened among pieces in which no block is open at the
    beginning. The pieces begin with the token that has the index. -/
def findFrom (index : Nat) (blocks : List Block) :
    List Piece → Except AssemblyError (List Block)
  | [] => .ok blocks
  | ⟨.opening, line⟩ :: rest => do
    let added ← add line index blocks
    let c ← close line blocks.length 0 (index + 1) added rest
    findFrom c.next c.blocks c.rest
  | ⟨.closing, line⟩ :: _ => .error ⟨.braceMismatch, line⟩
  | ⟨.label _, _⟩ :: rest => findFrom (index + 2) blocks rest
  | ⟨.namelessLabel, line⟩ :: _ => .error ⟨.malformedLabel, line⟩
  | ⟨.operation _, _⟩ :: rest => findFrom (index + 1) blocks rest
  | ⟨.operand _ _, _⟩ :: rest => findFrom (index + 1) blocks rest
termination_by pieces => pieces.length
decreasing_by
  all_goals first | exact Nat.lt_succ_self _ | exact Nat.lt_succ_of_lt c.length_lt

/-- The blocks of a program, if its braces and labels are right. -/
def find (pieces : List Piece) : Except AssemblyError (List Block) :=
  findFrom 0 [] pieces

end Block

end GridBots
