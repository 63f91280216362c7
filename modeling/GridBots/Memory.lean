import GridBots.Word

/-!
# Memory

Every bot has a memory of 10000 words of its own. It is divided into zones, one
after the other: for the program, for the *system registers*, which are cleared
before every tick, for the variables that the assembler gives an address, for
later use, and for whatever a program wants.

A memory is known by what is read from it (`Memory.ext_read`), and every way to
make one is described so: `read_blank`, `read_ofCode`, `read_write`,
`read_clearSystem`.
-/

namespace GridBots

/-- A range of addresses, from `start` on and before `stop`. -/
structure Zone where
  start : Nat
  stop : Nat
  deriving DecidableEq, Repr

namespace Zone

/-- The number of addresses in a zone. -/
def size (z : Zone) : Nat :=
  z.stop - z.start

instance : Membership Nat Zone :=
  ⟨fun z a => z.start ≤ a ∧ a < z.stop⟩

instance (a : Nat) (z : Zone) : Decidable (a ∈ z) :=
  inferInstanceAs (Decidable (z.start ≤ a ∧ a < z.stop))

theorem mem_iff {a : Nat} {z : Zone} : a ∈ z ↔ z.start ≤ a ∧ a < z.stop :=
  Iff.rfl

end Zone

/-- The number of words in a memory. -/
abbrev Memory.size : Nat := 10000

/-- The memory of a bot. -/
structure Memory where
  cells : Vector Word Memory.size
  deriving DecidableEq

namespace Memory

/-- Where the program is. -/
def codeZone : Zone := ⟨0, 2000⟩

/-- The system registers, zero at the start of every tick. -/
def systemZone : Zone := ⟨2000, 3000⟩

/-- Where the variables are that the assembler places. -/
def variableZone : Zone := ⟨3000, 4000⟩

/-- Kept free for later built-in names. -/
def protectedZone : Zone := ⟨4000, 4100⟩

/-- Free for programs. -/
def generalZone : Zone := ⟨4100, size⟩

/-- The system register in which a program leaves the direction to move in. -/
def moveRegister : Nat := systemZone.start

/-- The word at an address, if the address is in memory. -/
def read (m : Memory) (a : Nat) : Option Word :=
  m.cells[a]?

/-- The memory after a word is stored at an address. Outside of memory, nothing is. -/
def write (m : Memory) (a : Nat) (w : Word) : Memory :=
  ⟨m.cells.setIfInBounds a w⟩

/-- The address that a word stands for, if it is in memory. -/
def locate? (target : Word) : Option Nat :=
  target.address?.filter (· < size)

/-- The word at the address that a word stands for. -/
def fetch? (m : Memory) (target : Word) : Option Word :=
  (locate? target).bind m.read

/-- The memory in which every word is zero. -/
def blank : Memory :=
  ⟨Vector.replicate size 0⟩

/-- The memory that holds words from address zero on, and zeros after them. Words
    that do not fit into memory are not stored at all. -/
def ofCode (words : List Word) : Memory :=
  if h : words.length ≤ size then
    ⟨⟨(words ++ List.replicate (size - words.length) 0).toArray, by
      rw [List.size_toArray, List.length_append, List.length_replicate]
      omega⟩⟩
  else blank

/-- The memory with all system registers zero. -/
def clearSystem (m : Memory) : Memory :=
  let words := m.cells.toList
  ⟨⟨(words.take systemZone.start ++ (List.replicate systemZone.size 0 ++
      words.drop systemZone.stop)).toArray, by
    rw [List.size_toArray, List.length_append, List.length_append, List.length_take,
      List.length_replicate, List.length_drop, Vector.length_toList]
    rfl⟩⟩

/-- The addresses at which two memories differ, with the words of the second. -/
def changes (before after : Memory) : List (Nat × Word) :=
  (List.range size).filterMap fun a =>
    (after.read a).bind fun w => if before.read a = some w then none else some (a, w)

theorem read_eq_none_iff {m : Memory} {a : Nat} : m.read a = none ↔ size ≤ a := by
  rw [read, Vector.getElem?_eq_none_iff]

theorem exists_read {m : Memory} {a : Nat} (h : a < size) : ∃ w, m.read a = some w :=
  ⟨m.cells[a], Vector.getElem?_eq_getElem h⟩

theorem locate?_eq_some_iff {target : Word} {a : Nat} :
    locate? target = some a ↔ target.toInt = a ∧ a < size := by
  simp only [locate?, Option.filter_eq_some_iff, Word.address?_eq_some_iff, decide_eq_true_eq]

theorem ext_read {m n : Memory} (h : ∀ a, a < size → m.read a = n.read a) : m = n := by
  cases m with | mk c =>
  cases n with | mk d =>
  congr 1
  ext a ha
  have := h a ha
  simp only [read, Vector.getElem?_eq_getElem ha, Option.some.injEq] at this
  rw [this]

theorem read_blank {a : Nat} (h : a < size) : blank.read a = some 0 := by
  rw [read, blank, Vector.getElem?_replicate, if_pos h]

theorem read_write {m : Memory} {a b : Nat} {w : Word} :
    (m.write a w).read b = if a = b ∧ a < size then some w else m.read b := by
  rw [read, write, Vector.getElem?_setIfInBounds]
  by_cases hb : a = b
  · subst hb
    by_cases ha : a < size
    · rw [if_pos rfl, if_pos ha, if_pos ⟨rfl, ha⟩]
    · rw [if_pos rfl, if_neg ha, if_neg fun h => ha h.2, read_eq_none_iff.2 (Nat.le_of_not_lt ha)]
  · rw [if_neg hb, if_neg fun h => hb h.1, read]

theorem read_clearSystem {m : Memory} {a : Nat} :
    m.clearSystem.read a = (m.read a).map fun w => if a ∈ systemZone then 0 else w := by
  rw [read, clearSystem, Vector.getElem?_mk, List.getElem?_toArray, read, ← Vector.getElem?_toList]
  have hl : m.cells.toList.length = 10000 := Vector.length_toList
  generalize m.cells.toList = words at hl
  simp only [Zone.mem_iff, systemZone, Zone.size]
  by_cases h₁ : a < 2000
  · -- Below the system registers.
    rw [List.getElem?_append_left (by rw [List.length_take]; omega), List.getElem?_take_of_lt h₁]
    rw [funext fun w => if_neg (c := 2000 ≤ a ∧ a < 3000) (by omega), Option.map_id_fun', id]
  · rw [List.getElem?_append_right (by rw [List.length_take]; omega), List.length_take]
    by_cases h₂ : a < 3000
    · -- A system register.
      rw [List.getElem?_append_left (by rw [List.length_replicate]; omega),
        List.getElem?_replicate_of_lt (by omega), List.getElem?_eq_getElem (by omega),
        Option.map_some, if_pos ⟨by omega, h₂⟩]
    · -- Above the system registers.
      have ha : 3000 + (a - min 2000 words.length - (3000 - 2000)) = a := by omega
      rw [List.getElem?_append_right (by rw [List.length_replicate]; omega),
        List.length_replicate, List.getElem?_drop, ha]
      rw [funext fun w => if_neg (c := 2000 ≤ a ∧ a < 3000) (by omega), Option.map_id_fun', id]

theorem read_ofCode {words : List Word} {a : Nat} (hw : words.length ≤ size) (ha : a < size) :
    (ofCode words).read a = some (words[a]?.getD 0) := by
  rw [read, ofCode, dif_pos hw, Vector.getElem?_mk, List.getElem?_toArray]
  by_cases h : a < words.length
  · rw [List.getElem?_append_left h, List.getElem?_eq_getElem h, Option.getD_some]
  · rw [List.getElem?_append_right (Nat.le_of_not_lt h),
      List.getElem?_replicate_of_lt (by omega), List.getElem?_eq_none (Nat.le_of_not_lt h),
      Option.getD_none]

end Memory

end GridBots
