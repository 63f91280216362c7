import GridBots.Assembly.Error
import GridBots.Assembly.Token

/-!
# Sources

A *source* is what has been read of a program's text: its tokens, and how many
lines they came from. A line is read up to the first semicolon, where a comment
begins. A word with the reserved delimiter in it is refused, as is a word after
4096 tokens have been read. The words before it are kept, and the line counts.
-/

namespace GridBots

/-- What has been read of a program's text. -/
structure Source where
  tokens : Array Token
  /-- The number of lines read. -/
  lineCount : Nat
  deriving DecidableEq, Repr

namespace Source

/-- The greatest number of tokens that a source can hold. -/
def tokenCap : Nat := 4096

/-- The character that begins a comment. -/
def commentMarker : Char := ';'

/-- Nothing has been read. -/
def empty : Source :=
  ⟨#[], 0⟩

/-- The words of a line, without its comment. -/
def codeWords (line : String) : List String :=
  Text.words (line.toList.takeWhile (· ≠ commentMarker))

/-- The source with one more token, from the last line. -/
def push (s : Source) (word : String) : Source :=
  { s with tokens := s.tokens.push ⟨word, s.lineCount⟩ }

/-- Why a word of the last line is refused, if it is. -/
def refusal? (s : Source) (word : String) : Option AssemblyError :=
  if Token.reservedDelimiter ∈ word.toList then some ⟨.illegalToken, s.lineCount⟩
  else if tokenCap ≤ s.tokens.size then some ⟨.tooManyTokens, s.lineCount⟩
  else none

/-- The source after words of the last line are taken in, up to the first that is
    refused, and why that is, if there is one. -/
def accept (s : Source) : List String → Source × Option AssemblyError
  | [] => (s, none)
  | word :: words =>
    match s.refusal? word with
    | some e => (s, some e)
    | none => (s.push word).accept words

/-- The source after one more line, and what is wrong with the line, if anything. -/
def addLine (s : Source) (line : String) : Source × Option AssemblyError :=
  { s with lineCount := lineAfter s.lineCount }.accept (codeWords line)

/-- The source after one more line, if nothing is wrong with it. -/
def addLine? (s : Source) (line : String) : Except AssemblyError Source :=
  match s.addLine line with
  | (s, none) => .ok s
  | (_, some e) => .error e

/-- The source that a whole text is. -/
def ofText (text : String) : Except AssemblyError Source :=
  (Text.lines text).foldlM addLine? empty

end Source

end GridBots
