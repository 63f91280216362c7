import GridBots.Word

/-!
# Numerals

A numeral in a program is a decimal number, with a sign or without, or the
hexadecimal pattern of bits of a word after `0x`. A text that is not a numeral,
or that is one of a number out of range, has no value: it is a name then.
-/

namespace GridBots.Numeral

/-- The value of a digit: `0` to `9`, and then the letters `a` to `f` of either case. -/
def digitValue? (c : Char) : Option Nat :=
  if '0' ≤ c ∧ c ≤ '9' then some (c.toNat - '0'.toNat)
  else if 'a' ≤ c ∧ c ≤ 'f' then some (c.toNat - 'a'.toNat + 10)
  else if 'A' ≤ c ∧ c ≤ 'F' then some (c.toNat - 'A'.toNat + 10)
  else none

/-- The value of a digit, if it is one of the digits of a base. -/
def digit? (base : Nat) (c : Char) : Option Nat :=
  (digitValue? c).filter (· < base)

/-- The number that digits write, the most significant first. -/
def ofDigits (base : Nat) (digits : List Nat) : Nat :=
  digits.foldl (fun n d => n * base + d) 0

/-- The number that characters write, which must be digits, at least one. -/
def natural? (base : Nat) (cs : List Char) : Option Nat :=
  if cs.isEmpty then none else (cs.mapM (digit? base)).map (ofDigits base)

/-- Characters without the plus sign they may start with. -/
def dropPlus : List Char → List Char
  | '+' :: cs => cs
  | cs => cs

/-- The number that characters write in base ten, after an optional sign. -/
def integer? : List Char → Option Int
  | '-' :: cs => (natural? 10 cs).map fun n => -(n : Int)
  | cs => (natural? 10 (dropPlus cs)).map fun n => (n : Int)

/-- The word that a text is a numeral of, if any. After `0x` stand the bits of a
    word, in base sixteen; else the text is its value, in base ten. -/
def parse? (text : String) : Option Word :=
  match text.toList with
  | '0' :: 'x' :: cs =>
    (natural? 16 (dropPlus cs)).bind fun n => if n < Word.count then some (Word.ofBits n) else none
  | cs => (integer? cs).bind Word.ofInt?

end GridBots.Numeral
