import GridBots.Assembly.Token

/-!
# Pieces

The body of a program, which is what follows its aliases, is a sequence of
*pieces*. A piece is a token, except that a label takes the token after it for
its name, whatever that would be elsewhere.
-/

namespace GridBots

/-- What stands at a place in the body of a program. -/
inductive Item
  /-- The brace that opens a block. -/
  | opening
  /-- The brace that closes a block. -/
  | closing
  /-- A label with its name. -/
  | label (name : String)
  /-- A label that is not followed by a token that may be a name. -/
  | namelessLabel
  /-- The opcode of an instruction. -/
  | operation (op : Opcode)
  /-- An operand, without its mark if it is an immediate one. -/
  | operand (text : String) (immediate : Bool)
  deriving DecidableEq, Repr

/-- The number of tokens of an item. -/
def Item.tokenCount : Item → Nat
  | label _ => 2
  | _ => 1

/-- An item, and the number of the line it begins on. -/
structure Piece where
  item : Item
  line : Nat
  deriving DecidableEq, Repr

namespace Piece

/-- What a token is that is not a label. -/
def ofToken (t : Token) : Piece :=
  if t.text = Token.blockOpen then ⟨.opening, t.line⟩
  else if t.text = Token.blockClose then ⟨.closing, t.line⟩
  else match Opcode.ofMnemonic? t.text with
    | some op => ⟨.operation op, t.line⟩
    | none => ⟨.operand t.operandText t.isImmediate, t.line⟩

/-- The pieces that tokens are. -/
def ofTokens : List Token → List Piece
  | [] => []
  | t :: rest =>
    if t.isLabel then
      match rest with
      | [] => [⟨.namelessLabel, t.line⟩]
      | name :: rest =>
        if name.canBeName then ⟨.label name.text, t.line⟩ :: ofTokens rest
        else ⟨.namelessLabel, t.line⟩ :: ofTokens (name :: rest)
    else ofToken t :: ofTokens rest

end Piece

end GridBots
