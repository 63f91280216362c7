import GridBots.Numeral
import GridBots.Opcode

/-!
# Tokens

A *token* is a word of a program's text together with the number of its line.
What a token means depends on its spelling alone: braces enclose blocks,
`ALIAS` and `LABEL` are directives, which define names, opcodes begin
instructions, and all others are operands.
-/

namespace GridBots

/-- A word of a program's text. -/
structure Token where
  text : String
  /-- The number of the line it is on. -/
  line : Nat
  deriving DecidableEq, Repr

namespace Token

/-- No token has this character in it. -/
def reservedDelimiter : Char := '+'

/-- The mark of an immediate operand, in front of it. -/
def immediateMarker : Char := '#'

/-- The token that opens a block. -/
def blockOpen : String := "\x7b"

/-- The token that closes a block. -/
def blockClose : String := "\x7d"

/-- The word that defines a name for a value, in any case. -/
def aliasDirective : String := "ALIAS"

/-- Whether a text is the word that begins an alias. -/
def isAliasText (text : String) : Bool :=
  Text.upperCase text = aliasDirective

/-- Whether a token begins an alias. -/
def isAlias (t : Token) : Bool :=
  isAliasText t.text

/-- Whether a token begins a label. -/
def isLabel (t : Token) : Bool :=
  Opcode.ofMnemonic? t.text = some .label

/-- Whether a token may be the value of an alias: it is no brace, and not marked
    as immediate. -/
def canBeValue (t : Token) : Bool :=
  t.text.toList.head? ≠ some immediateMarker ∧ t.text ≠ blockOpen ∧ t.text ≠ blockClose

/-- Whether a token may be the name of an alias or a label: it may be a value,
    and is no numeral. -/
def canBeName (t : Token) : Bool :=
  t.canBeValue ∧ Numeral.parse? t.text = none

/-- Whether a token, taken as an operand, is marked as immediate. -/
def isImmediate (t : Token) : Bool :=
  t.text.toList.head? = some immediateMarker

/-- The text of a token, taken as an operand, without the mark of an immediate one. -/
def operandText (t : Token) : String :=
  if t.isImmediate then String.ofList t.text.toList.tail else t.text

end Token

end GridBots
