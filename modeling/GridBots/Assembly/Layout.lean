import GridBots.Assembly.Block
import GridBots.Assembly.Symbols
import GridBots.Header

/-!
# Layouts

A *layout* says what the words of a program will be, in their order, before it
is known what the names in it stand for. A word is the header of an instruction,
an operand, or the number of words that a block has and that are skipped with
it. Labels are in the layout where they stand, in front of a word or at the end.

The operands of an instruction are those after it, up to the next piece that is
none. If that piece opens a block, the block is the last operand, and immediate.
When an instruction is placed, its header counts no operands yet; it is completed
in its place while they are read (`Layout.addOperand`).
-/

namespace GridBots

/-- What a word of a program will be. -/
inductive Slot
  /-- The header of an instruction. -/
  | instruction (header : Header)
  /-- The operand that is written so. -/
  | operand (text : String)
  /-- The number of words of a block. -/
  | skip (width : Nat)
  deriving DecidableEq, Repr

/-- A place in a layout, and the number of the line it comes from. -/
inductive Placed
  | slot (s : Slot) (line : Nat)
  | label (name : String) (line : Nat)
  deriving DecidableEq, Repr

/-- The number of the line that a place comes from. -/
def Placed.line : Placed → Nat
  | slot _ line => line
  | label _ line => line

/-- The places of a program, in their order. -/
abbrev Layout := List Placed

namespace Layout

/-- The greatest number of places of a layout. -/
def cap : Nat := 4096

/-- The layout with one more place at its end, if there is room for it. -/
def add (placed : Layout) (p : Placed) : Except AssemblyError Layout :=
  if cap ≤ placed.length then .error ⟨.tooManyTokens, p.line⟩
  else .ok (placed ++ [p])

/-- The layout with one more operand in a header: that of the instruction whose operands are
    being read, if there is one, which is at the place `current?`. -/
def addOperand (placed : Layout) (current? : Option Nat) (immediate : Bool) :
    Except AssemblyError Layout :=
  match current? with
  | none => .ok placed
  | some current =>
    match placed[current]? with
    | some (.slot (.instruction h) line) =>
      match h.push? immediate with
      | some h => .ok (placed.set current (.slot (.instruction h) line))
      | none => .error ⟨.tooManyOperands, line⟩
    | _ => .ok placed

/-- The layout with the places of pieces after it, where `blocks` are those that the pieces open,
    and `current?` is the place of the instruction whose operands are being read. -/
def placeFrom (current? : Option Nat) (blocks : List Block) (placed : Layout) :
    List Piece → Except AssemblyError Layout
  | [] => .ok placed
  | ⟨.opening, line⟩ :: rest =>
    match blocks with
    | [] => .error ⟨.braceMismatch, line⟩
    | b :: blocks => do
      let placed ← placed.addOperand current? true
      let placed ← placed.add (.slot (.skip b.width) line)
      placeFrom none blocks placed rest
  | ⟨.closing, _⟩ :: rest => placeFrom none blocks placed rest
  | ⟨.label name, line⟩ :: rest => do
    let placed ← placed.add (.label name line)
    placeFrom none blocks placed rest
  | ⟨.namelessLabel, line⟩ :: _ => .error ⟨.malformedLabel, line⟩
  | ⟨.operation op, line⟩ :: rest => do
    let placed ← placed.add (.slot (.instruction (Header.new op)) line)
    placeFrom (some (placed.length - 1)) blocks placed rest
  | ⟨.operand text immediate, line⟩ :: rest => do
    let placed ← placed.addOperand current? immediate
    let placed ← placed.add (.slot (.operand text) line)
    placeFrom current? blocks placed rest

/-- The layout of a program with the given blocks, if nothing is wrong with it. -/
def place (pieces : List Piece) (blocks : List Block) : Except AssemblyError Layout :=
  placeFrom none blocks [] pieces

/-- The words of a layout to be, with their lines. -/
def slots : Layout → List (Slot × Nat)
  | [] => []
  | .slot s line :: rest => (s, line) :: slots rest
  | .label _ _ :: rest => slots rest

theorem slots_append (l l' : Layout) : slots (l ++ l') = slots l ++ slots l' := by
  induction l with
  | nil => rfl
  | cons p l ih =>
    cases p with
    | slot s line => exact congrArg _ ih
    | label name line => exact ih

/-- A number of words as a word, if it is not too great to be one. -/
def countWord (n : Nat) : Except Fault Word :=
  match Word.ofNat? n with
  | some w => .ok w
  | none => .error .programTooLarge

theorem countWord_eq_ok {n : Nat} {w : Word} :
    countWord n = .ok w ↔ n < 0x80000000 ∧ Int32.ofNat n = w := by
  rw [← Word.ofNat?_eq_some_iff, countWord]
  cases Word.ofNat? n with
  | none => exact ⟨fun h => (nomatch h), fun h => (nomatch h)⟩
  | some v => exact ⟨fun h => congrArg _ (Except.ok.inj h), fun h => congrArg _ (Option.some.inj h)⟩

theorem countWord_of_lt {n : Nat} (h : n < 0x80000000) : countWord n = .ok (Int32.ofNat n) :=
  countWord_eq_ok.2 ⟨h, rfl⟩

/-- The table after the labels of a layout are defined to be the addresses of
    the words after them, where the next word has the given address. -/
def bindLabels (address : Nat) (t : SymbolTable) : Layout → Except AssemblyError SymbolTable
  | [] => .ok t
  | .slot _ _ :: rest => bindLabels (address + 1) t rest
  | .label name line :: rest => do
    let w ← atLine line (countWord address)
    let t ← atLine line (t.define name (.number w))
    bindLabels address t rest

theorem bindLabels_label_eq_ok {address line : Nat} {t t' : SymbolTable} {name : String}
    {rest : Layout} :
    bindLabels address t (.label name line :: rest) = .ok t' ↔
      address < 0x80000000 ∧ ∃ t₁, t.define name (.number (Int32.ofNat address)) = .ok t₁ ∧
        bindLabels address t₁ rest = .ok t' := by
  rw [bindLabels, except_bind_eq_ok]
  constructor
  · rintro ⟨w, hw, h⟩
    obtain ⟨hlt, rfl⟩ := countWord_eq_ok.1 (atLine_eq_ok.1 hw)
    obtain ⟨t₁, ht₁, h⟩ := except_bind_eq_ok.1 h
    exact ⟨hlt, t₁, atLine_eq_ok.1 ht₁, h⟩
  · rintro ⟨hlt, t₁, ht₁, h⟩
    exact ⟨_, atLine_eq_ok.2 (countWord_of_lt hlt),
      except_bind_eq_ok.2 ⟨t₁, atLine_eq_ok.2 ht₁, h⟩⟩

/-- Whether a word will be the header of an instruction that ends the tick. -/
def isEnd : Slot → Bool
  | .instruction h => h.opcode = Opcode.halt.value
  | _ => false

/-- Whether the last word of a layout will be such a header. -/
def isTerminated (l : Layout) : Bool :=
  l.slots.getLast?.any fun s => isEnd s.1

/-- The line after that of the last word of a layout, or after the last line if
    the layout has no words. -/
def endLine (lineCount : Nat) (l : Layout) : Nat :=
  lineAfter ((l.slots.getLast?.map Prod.snd).getD lineCount)

/-- The layout with an instruction at the end that ends the tick, if it has none
    there. -/
def terminate (lineCount : Nat) (l : Layout) : Except AssemblyError Layout :=
  if l.isTerminated then .ok l
  else l.add (.slot (.instruction (Header.new .halt)) (l.endLine lineCount))

end Layout

end GridBots
