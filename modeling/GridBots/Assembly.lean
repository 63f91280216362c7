import GridBots.Assembly.Layout
import GridBots.Assembly.Program
import GridBots.Assembly.Source

/-!
# Assembly

How a text becomes a program. The text is read into tokens; aliases at its
beginning are defined; the rest, its body, is cut into pieces and laid out; the
labels in it are defined, so that the addresses of the words after them are
known from then on; and the words of the layout are written in turn, where names
become variables when they are first met. At each stage, the first thing that is
wrong is the error.

* `Source.assemble`: the program that a source is;
* `assemble`: the program that a text is.
-/

namespace GridBots

/-- The greatest number of words of a program. -/
def Program.cap : Nat := Memory.codeZone.size

/-- The table after the aliases at the beginning of tokens are defined, and the
    tokens after them. -/
def SymbolTable.defineAliases (t : SymbolTable) :
    List Token → Except AssemblyError (SymbolTable × List Token)
  | [] => .ok (t, [])
  | d :: rest =>
    if d.isAlias then
      match rest with
      | name :: value :: rest =>
        if name.canBeName ∧ value.canBeValue then do
          let t ← atLine d.line (t.define name.text (Symbol.ofText value.text))
          t.defineAliases rest
        else .error ⟨.malformedAlias, d.line⟩
      | _ => .error ⟨.malformedAlias, d.line⟩
    else .ok (t, d :: rest)

/-- The word that an operand is, and the table after it is written. -/
def SymbolTable.operand (t : SymbolTable) (text : String) : Except Fault (Word × SymbolTable) :=
  match Numeral.parse? text with
  | some w => .ok (w, t)
  | none => t.resolve text

/-- The word that a slot is for, and the table after it is written. -/
def SymbolTable.word (t : SymbolTable) : Slot → Except Fault (Word × SymbolTable)
  | .instruction h => .ok (h.encode, t)
  | .operand text => t.operand text
  | .skip width => do
    let w ← Layout.countWord width
    .ok (w, t)

/-- The words that slots are for, and the table after they are written, if there
    is room for so many words. -/
def SymbolTable.write (t : SymbolTable) (room : Nat) :
    List (Slot × Nat) → Except AssemblyError (List Cell × SymbolTable)
  | [] => .ok ([], t)
  | (s, line) :: rest => do
    let (w, t) ← atLine line (t.word s)
    if room = 0 then .error ⟨.programTooLarge, line⟩
    else do
      let (cells, t) ← t.write (room - 1) rest
      .ok (⟨w, line⟩ :: cells, t)

/-- The program that a layout is, with names as in the table. -/
def Layout.write (l : Layout) (t : SymbolTable) : Except AssemblyError Program := do
  let (cells, t) ← t.write Program.cap l.slots
  .ok ⟨cells, t.variableNames.length⟩

namespace Source

/-- The program that a source is. -/
def assemble (s : Source) : Except AssemblyError Program := do
  let (t, body) ← SymbolTable.empty.defineAliases s.tokens.toList
  match body.find? Token.isAlias with
  | some stray => .error ⟨.malformedAlias, stray.line⟩
  | none =>
    let pieces := Piece.ofTokens body
    let blocks ← Block.find pieces
    let layout ← Layout.place pieces blocks
    let t ← layout.bindLabels 0 t
    let layout ← layout.terminate s.lineCount
    layout.write t

end Source

/-- The program that a text is. -/
def assemble (text : String) : Except AssemblyError Program := do
  let s ← Source.ofText text
  s.assemble

end GridBots
