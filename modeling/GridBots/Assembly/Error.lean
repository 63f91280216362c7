/-!
# What is wrong with a program

A text that is not a program is refused with a *fault*, and with the number of
the line it is found on. Lines are counted from one on, as far as 32 bits go.
-/

namespace GridBots

/-- Why a text is refused. -/
inductive Fault
  /-- A word has the character in it that is reserved. -/
  | illegalToken
  /-- An alias lacks its name or its value, or follows an instruction. -/
  | malformedAlias
  /-- A label lacks its name. -/
  | malformedLabel
  /-- A brace has no partner. -/
  | braceMismatch
  /-- A built-in name is defined. -/
  | reservedName
  /-- An instruction has more operands than its header can count. -/
  | tooManyOperands
  /-- The words do not fit into the code zone. -/
  | programTooLarge
  /-- There are more variables than there is room for. -/
  | variableZoneFull
  /-- There are more tokens, or slots, than the assembler takes. -/
  | tooManyTokens
  /-- There are more names, or blocks, than the assembler takes. -/
  | tooManySymbols
  deriving DecidableEq, Repr

/-- The wording of a fault. -/
def Fault.message : Fault → String
  | illegalToken => "token contains the reserved delimiter"
  | malformedAlias => "ALIAS needs a name and a value and must come before any instruction"
  | malformedLabel => "LABEL needs a name"
  | braceMismatch => "unmatched brace"
  | reservedName => "built-in names can not be redefined"
  | tooManyOperands => "instruction has more than seven operands"
  | programTooLarge => "program does not fit in the code zone"
  | variableZoneFull => "no space left for auto-assigned symbols"
  | tooManyTokens => "too many tokens"
  | tooManySymbols => "too many aliases, labels or blocks"

/-- A fault, and the number of the line it is found on. -/
structure AssemblyError where
  fault : Fault
  line : Nat
  deriving DecidableEq, Repr

namespace AssemblyError

/-- The wording of an error. -/
def message (e : AssemblyError) : String :=
  e.fault.message ++ " on line " ++ Nat.repr e.line

end AssemblyError

/-- A result, with a line number added to its fault. -/
def atLine {α : Type} (line : Nat) (result : Except Fault α) : Except AssemblyError α :=
  result.mapError fun fault => ⟨fault, line⟩

theorem except_bind_eq_ok {ε α β : Type} {x : Except ε α} {f : α → Except ε β} {b : β} :
    (x >>= f) = .ok b ↔ ∃ a, x = .ok a ∧ f a = .ok b := by
  cases x with
  | error e =>
    constructor
    · intro h
      cases h
    · rintro ⟨_, h, _⟩
      cases h
  | ok a => exact ⟨fun h => ⟨a, rfl, h⟩, fun ⟨_, h, hf⟩ => Except.ok.inj h ▸ hf⟩

theorem except_bind_eq_error {ε α β : Type} {x : Except ε α} {f : α → Except ε β} {e : ε} :
    (x >>= f) = .error e ↔ x = .error e ∨ ∃ a, x = .ok a ∧ f a = .error e := by
  cases x with
  | error e' =>
    constructor
    · intro h
      exact .inl (congrArg _ (Except.error.inj h))
    · rintro (h | ⟨_, h, _⟩)
      · exact congrArg _ (Except.error.inj h)
      · cases h
  | ok a =>
    constructor
    · exact fun h => .inr ⟨a, rfl, h⟩
    · rintro (h | ⟨_, h, hf⟩)
      · cases h
      · exact Except.ok.inj h ▸ hf

theorem atLine_eq_ok {α : Type} {line : Nat} {x : Except Fault α} {a : α} :
    atLine line x = .ok a ↔ x = .ok a := by
  cases x with
  | error e =>
    constructor
    · intro h
      cases h
    · intro h
      cases h
  | ok a => exact ⟨fun h => congrArg _ (Except.ok.inj h), fun h => congrArg _ (Except.ok.inj h)⟩

theorem atLine_eq_error {α : Type} {line : Nat} {x : Except Fault α} {e : AssemblyError} :
    atLine line x = .error e ↔ ∃ fault, x = .error fault ∧ ⟨fault, line⟩ = e := by
  cases x with
  | error fault =>
    constructor
    · exact fun h => ⟨fault, rfl, Except.error.inj h⟩
    · rintro ⟨_, h, rfl⟩
      cases h
      rfl
  | ok a =>
    constructor
    · intro h
      cases h
    · rintro ⟨_, h, _⟩
      cases h

/-- The number of the line after a line, or the greatest number of 32 bits. -/
def lineAfter (line : Nat) : Nat :=
  min (line + 1) 0xFFFFFFFF

end GridBots
