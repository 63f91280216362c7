import GridBots.Word

/-!
# The grid

Bots stand on the points of a plane, whose first coordinate grows to the right
and whose second grows downwards. A bot asks to be moved by one point, in one of
four directions; a *delta* is the change of the two coordinates. A position and
a delta have a sum only if its coordinates are words.
-/

namespace GridBots

/-- A change of position. -/
structure Delta where
  dx : Word
  dy : Word
  deriving DecidableEq, Repr

namespace Delta

/-- No change. -/
def zero : Delta := ⟨0, 0⟩

/-- Whether a delta is no change. -/
def isZero (d : Delta) : Bool :=
  d = zero

end Delta

/-- The four directions a bot may move in. -/
inductive Direction
  | up
  | right
  | down
  | left
  deriving DecidableEq, Repr

namespace Direction

/-- The word by which a program asks for a direction. -/
def word : Direction → Word
  | up => 1
  | right => 2
  | down => 3
  | left => 4

/-- The direction a word asks for, if it does. -/
def ofWord? (w : Word) : Option Direction :=
  [up, right, down, left].find? fun d => d.word = w

/-- The change of position by one point in a direction. -/
def delta : Direction → Delta
  | up => ⟨0, -1⟩
  | right => ⟨1, 0⟩
  | down => ⟨0, 1⟩
  | left => ⟨-1, 0⟩

theorem ofWord?_word (d : Direction) : ofWord? d.word = some d := by
  cases d <;> decide

theorem word_ofWord? {w : Word} {d : Direction} (h : ofWord? w = some d) : d.word = w := by
  simpa using List.find?_some h

end Direction

/-- The change of position that the word in the move register asks for. A word
    that is no direction asks for none. -/
def Delta.ofRegister (w : Word) : Delta :=
  ((Direction.ofWord? w).map Direction.delta).getD zero

/-- A point of the grid. -/
structure Position where
  x : Word
  y : Word
  deriving DecidableEq, Repr

/-- The position reached by a change, if its coordinates are words. -/
def Position.offset? (p : Position) (d : Delta) : Option Position :=
  (Word.add? p.x d.dx).bind fun x => (Word.add? p.y d.dy).map fun y => ⟨x, y⟩

theorem Position.offset?_eq_some_iff {p q : Position} {d : Delta} :
    p.offset? d = some q ↔
      q.x.toInt = p.x.toInt + d.dx.toInt ∧ q.y.toInt = p.y.toInt + d.dy.toInt := by
  simp only [offset?, Option.bind_eq_some_iff, Option.map_eq_some_iff, Word.add?,
    Word.toInt_ofInt?]
  constructor
  · rintro ⟨x, hx, y, hy, rfl⟩
    exact ⟨hx, hy⟩
  · rintro ⟨hx, hy⟩
    exact ⟨q.x, hx, q.y, hy, rfl⟩

/-- The rectangle of points with coordinates from zero on, and below a width and
    a height. There are none if one of these is not positive. -/
structure Bounds where
  width : Word
  height : Word
  deriving DecidableEq, Repr

namespace Bounds

/-- The rectangle that is used unless another is asked for. -/
def standard : Bounds := ⟨20, 10⟩

instance : Membership Position Bounds :=
  ⟨fun b p => (0 ≤ p.x ∧ p.x < b.width) ∧ 0 ≤ p.y ∧ p.y < b.height⟩

instance (p : Position) (b : Bounds) : Decidable (p ∈ b) :=
  inferInstanceAs (Decidable ((0 ≤ p.x ∧ p.x < b.width) ∧ 0 ≤ p.y ∧ p.y < b.height))

end Bounds

end GridBots
