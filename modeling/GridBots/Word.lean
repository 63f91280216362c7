/-!
# Words

The machine computes with *words*, signed numbers of 32 bits whose arithmetic
wraps around. A word is read in three ways: as the number it is, as a pattern
of 32 bits (`Word.bits`, `Word.ofBits`), and as an address, which only the words
that are not negative are (`Word.address?`). Coordinates on the grid are words
too, but a bot that would leave the range of words does not move, so that
positions are added by `Word.add?`.

* `ofBits_bits`, `bits_ofBits`: words and patterns of 32 bits are the same thing;
* `toInt_ofInt?`: a number is a word exactly if it is in range.
-/

namespace GridBots

/-- A machine word: a signed number of 32 bits. Its `+` and `-` wrap around. -/
abbrev Word := Int32

namespace Word

/-- The number of words, 2³². -/
def count : Nat := 0x100000000

/-- The word with value `i`, if there is one: words range from -2³¹ to 2³¹ - 1. -/
def ofInt? (i : Int) : Option Word :=
  if -0x80000000 ≤ i ∧ i < 0x80000000 then some (Int32.ofInt i) else none

/-- The word with value `n`, if there is one. -/
def ofNat? (n : Nat) : Option Word :=
  if n < 0x80000000 then some (Int32.ofNat n) else none

/-- The word whose pattern of bits is the number `n`, modulo 2³². -/
def ofBits (n : Nat) : Word :=
  (UInt32.ofNat n).toInt32

/-- The pattern of bits of a word, as a number below 2³². -/
def bits (w : Word) : Nat :=
  w.toUInt32.toNat

/-- The address a word stands for: its value, unless that is negative. -/
def address? (w : Word) : Option Nat :=
  w.toInt.toNat?

/-- The sum of two words, if it is a word. -/
def add? (v w : Word) : Option Word :=
  ofInt? (v.toInt + w.toInt)

/-- The truth value of a comparison: one if it holds, zero otherwise. -/
def ofBool (b : Bool) : Word :=
  if b then 1 else 0

theorem bits_lt (w : Word) : w.bits < count :=
  w.toUInt32.toNat_lt

theorem ofBits_bits (w : Word) : ofBits w.bits = w := by
  rw [ofBits, bits, UInt32.ofNat_toNat]
  rfl

theorem bits_ofBits {n : Nat} (h : n < count) : (ofBits n).bits = n := by
  change (UInt32.ofNat n).toNat = n
  exact UInt32.toNat_ofNat_of_lt' h

theorem toInt_ofInt? {i : Int} {w : Word} : ofInt? i = some w ↔ w.toInt = i := by
  have hl := w.le_toInt
  have hu := w.toInt_lt
  rw [ofInt?]
  split
  · next h =>
    rw [Option.some.injEq]
    refine ⟨fun hw => hw ▸ Int32.toInt_ofInt_of_le h.1 h.2, fun hw => ?_⟩
    rw [← hw, Int32.ofInt_toInt]
  · refine ⟨fun hw => (nomatch hw), fun hw => ?_⟩
    omega

theorem ofNat?_eq_some_iff {n : Nat} {w : Word} :
    ofNat? n = some w ↔ n < 0x80000000 ∧ Int32.ofNat n = w := by
  rw [ofNat?]
  split
  · next h => exact ⟨fun hw => ⟨h, Option.some.inj hw⟩, fun hw => congrArg some hw.2⟩
  · next h => exact ⟨fun hw => (nomatch hw), fun hw => absurd hw.1 h⟩

theorem address?_eq_some_iff {w : Word} {a : Nat} : w.address? = some a ↔ w.toInt = a :=
  Int.mem_toNat?

theorem address?_eq_none_iff {w : Word} : w.address? = none ↔ w.toInt < 0 := by
  cases h : w.address? with
  | none =>
    refine ⟨fun _ => Int.not_le.1 fun hw => ?_, fun _ => rfl⟩
    rw [address?_eq_some_iff.2 (Int.toNat_of_nonneg hw).symm] at h
    exact nomatch h
  | some a =>
    refine ⟨fun hn => (nomatch hn), fun hw => ?_⟩
    rw [address?_eq_some_iff] at h
    omega

end Word

end GridBots
