/-!
# Texts

Programs are written as text. The text is cut into lines, and a line into the
words between its blanks; words are compared without regard to case where they
are keywords.
-/

namespace GridBots.Text

/-- A text in upper case. Only the letters from `a` to `z` have another case. -/
def upperCase (text : String) : String :=
  String.ofList (text.toList.map Char.toUpper)

/-- The line without the carriage return it may end with. -/
def dropReturn (line : List Char) : List Char :=
  if line.getLast? = some '\r' then line.dropLast else line

/-- The lines that the pieces of a text between its line feeds are. A line feed
    ends a line, together with a carriage return just before it; after the last
    one there is no other line, unless there is something in it. -/
def endedLines : List (List Char) → List (List Char)
  | [] => []
  | [last] => if last.isEmpty then [] else [last]
  | line :: next :: rest => dropReturn line :: endedLines (next :: rest)

/-- The lines of a text. -/
def lines (text : String) : List String :=
  (endedLines (text.toList.splitOnP (· == '\n'))).map String.ofList

/-- Whether a character separates words: a space, a tab or a carriage return. -/
def isBlank (c : Char) : Bool :=
  c == ' ' || c == '\t' || c == '\r'

/-- The words of a line, which are the longest parts of it without blanks. -/
def words (line : List Char) : List String :=
  ((line.splitOnP isBlank).filter fun word => !word.isEmpty).map String.ofList

end GridBots.Text
