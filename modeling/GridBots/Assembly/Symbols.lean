import GridBots.Assembly.Error
import GridBots.Assembly.Token
import GridBots.Grid
import GridBots.Memory

/-!
# Symbols

A name in a program stands for a word. Some names are *built in*: the spellings
of opcodes, the directions, and the move register. A program defines others, by
aliases and labels, to be numbers or other names; the last definition counts.
All other names are *variables*: when such a name is first used, it gets the
next free address of the variable zone.

A name that is defined to be another name stands for what the other is by
itself: a built-in word, a number or a variable, but not a third name.
-/

namespace GridBots

/-- What a name is defined to be. -/
inductive Symbol
  | number (w : Word)
  | name (target : String)
  deriving DecidableEq, Repr

/-- What a text, taken as the value of an alias, defines a name to be. -/
def Symbol.ofText (text : String) : Symbol :=
  match Numeral.parse? text with
  | some w => number w
  | none => name text

/-- The names of a program. -/
structure SymbolTable where
  /-- The definitions, at most one of a name. -/
  entries : List (String × Symbol)
  /-- The variables, in the order of their addresses. -/
  variableNames : List String
  deriving DecidableEq, Repr

namespace SymbolTable

/-- The greatest number of names that can be defined. -/
def entryCap : Nat := 512

/-- The greatest number of variables. -/
def variableCap : Nat := Memory.variableZone.size

/-- The table of a program that defines and uses no names. -/
def empty : SymbolTable :=
  ⟨[], []⟩

/-- The built-in names that are not spellings of opcodes. -/
def registers : List (String × Word) :=
  [("UP", Direction.up.word), ("RIGHT", Direction.right.word), ("DOWN", Direction.down.word),
    ("LEFT", Direction.left.word), ("MOVE", Int32.ofNat Memory.moveRegister)]

/-- The word that a built-in name stands for. An opcode stands for its number. -/
def builtin? (name : String) : Option Word :=
  match Opcode.ofMnemonic? name with
  | some op => some (Int32.ofNat op.value)
  | none => registers.lookup name

/-- Whether a name cannot be defined. -/
def isReserved (name : String) : Bool :=
  Token.isAliasText name || (builtin? name).isSome

/-- The definition of a name. -/
def definition? (t : SymbolTable) (name : String) : Option Symbol :=
  t.entries.lookup name

/-- The table after a name is defined. Its former definition is forgotten. -/
def define (t : SymbolTable) (name : String) (value : Symbol) : Except Fault SymbolTable :=
  if isReserved name then .error .reservedName
  else if (t.definition? name).isNone ∧ entryCap ≤ t.entries.length then .error .tooManySymbols
  else .ok { t with entries := (name, value) :: t.entries.filter fun e => e.1 ≠ name }

theorem lookup_filter_ne {entries : List (String × Symbol)} {name other : String}
    (h : other ≠ name) :
    (entries.filter fun e => e.1 ≠ name).lookup other = entries.lookup other := by
  induction entries with
  | nil => rfl
  | cons e entries ih =>
    obtain ⟨key, value⟩ := e
    by_cases hk : key = name
    · -- The entry is forgotten, and it is not the one looked for.
      have ho : (other == key) = false := by rw [hk]; exact beq_false_of_ne h
      rw [List.filter_cons_of_neg (by simpa using hk), List.lookup_cons, ho, ih]
    · rw [List.filter_cons_of_pos (by simpa using hk), List.lookup_cons, List.lookup_cons, ih]

theorem definition?_define {t t' : SymbolTable} {name : String} {value : Symbol}
    (h : t.define name value = .ok t') (other : String) :
    t'.definition? other = if other = name then some value else t.definition? other := by
  rw [define] at h
  split at h
  · exact nomatch h
  split at h
  · exact nomatch h
  obtain rfl := Except.ok.inj h
  rw [definition?, List.lookup_cons]
  by_cases ho : other = name
  · rw [if_pos ho, ho, beq_self_eq_true]
  · rw [if_neg ho, beq_false_of_ne ho, lookup_filter_ne ho, definition?]

/-- The address of the variable with an index. -/
def variableAddress (index : Nat) : Word :=
  Int32.ofNat (Memory.variableZone.start + index)

/-- The address of the variable with an index, if it is in the zone for variables. -/
def variableAddress? (index : Nat) : Option Word :=
  if Memory.variableZone.start + index ∈ Memory.variableZone then
    Word.ofNat? (Memory.variableZone.start + index)
  else none

/-- The zone for variables has an address for as many as there may be. -/
theorem variableAddress?_eq (index : Nat) :
    variableAddress? index =
      if index < variableCap then some (variableAddress index) else none := by
  have hmem : Memory.variableZone.start + index ∈ Memory.variableZone ↔ index < 1000 := by
    change 3000 ≤ 3000 + index ∧ 3000 + index < 4000 ↔ index < 1000
    omega
  change _ = if index < 1000 then some (variableAddress index) else none
  rw [variableAddress?]
  by_cases h : index < 1000
  · have hword : Memory.variableZone.start + index < 0x80000000 := by
      change 3000 + index < 0x80000000
      omega
    rw [if_pos (hmem.2 h), if_pos h, Word.ofNat?, if_pos hword, variableAddress]
  · rw [if_neg (mt hmem.1 h), if_neg h]

/-- The variables with their addresses. -/
def variableAddresses (t : SymbolTable) : List (String × Word) :=
  t.variableNames.zipIdx.filterMap fun e => (variableAddress? e.2).map (e.1, ·)

/-- The address of a variable, if it has one already. -/
def addressOf? (t : SymbolTable) (name : String) : Option Word :=
  (t.variableNames.idxOf? name).bind variableAddress?

/-- The number that a name is defined to be. -/
def number? (t : SymbolTable) (name : String) : Option Word :=
  match t.definition? name with
  | some (.number w) => some w
  | _ => none

/-- What a name stands for by itself, if that is known already. -/
def lookupTarget? (t : SymbolTable) (name : String) : Option Word :=
  builtin? name <|> t.number? name <|> t.addressOf? name

/-- What a name stands for, if that is known already. -/
def lookup (t : SymbolTable) (name : String) : Option Word :=
  builtin? name <|>
    match t.definition? name with
    | some (.number w) => some w
    | some (.name target) => t.lookupTarget? target
    | none => t.addressOf? name

/-- The address of a name that becomes the next variable, and the table after that. -/
def addVariable (t : SymbolTable) (name : String) : Except Fault (Word × SymbolTable) :=
  if t.variableNames.length < variableCap then
    let t := { t with variableNames := t.variableNames ++ [name] }
    match t.addressOf? name with
    | some w => .ok (w, t)
    | none => .error .variableZoneFull
  else .error .variableZoneFull

/-- What a name stands for that has a target: the name that it is defined to be, or itself.
    Only the former is one level further, where it may be defined to be a number. If
    nothing is known of the target, it becomes the next variable. -/
def resolveTarget (t : SymbolTable) (name target : String) : Except Fault (Word × SymbolTable) :=
  let number? := if target ≠ name then t.number? target else none
  match builtin? target <|> number? <|> t.addressOf? target with
  | some w => .ok (w, t)
  | none => t.addVariable target

/-- What a name stands for, and the table after the name is used. -/
def resolve (t : SymbolTable) (name : String) : Except Fault (Word × SymbolTable) :=
  match t.definition? name with
  | some (.number w) => .ok (w, t)
  | some (.name target) => t.resolveTarget name target
  | none => t.resolveTarget name name

end SymbolTable

end GridBots
