import GridBots.Proofs.Literals

/-!
# The grammar of numerals

Which texts are numerals, and of which words, is said by a grammar (`Numeral.Denotes`). A numeral is
a row of decimal digits, maybe after one sign, of a number that is a word; or else `0x` and a row of
hexadecimal digits, maybe after a plus sign, of the bits of a word. Rows of digits are as long as
one likes, so that they may begin with any number of zeros.

A text is read as a word exactly if it denotes that word (`Numeral.parse?_eq_some_iff`), and all
others are names (`Numeral.parse_follows_grammar`).
-/

namespace GridBots

/-! ## The grammar -/

namespace Numeral

/-- Characters write a natural number in a base: they are digits, at least one, and a plus sign
    may stand before them. -/
def IsNatural (base : Nat) (cs : List Char) (n : Nat) : Prop :=
  ∃ ds : Digits base, (cs = ds.chars ∨ cs = '+' :: ds.chars) ∧ ds.value = n

/-- Characters write an integer in base ten: they are a natural number, or digits after a minus
    sign. -/
def IsInteger (cs : List Char) (i : Int) : Prop :=
  (∃ n : Nat, IsNatural 10 cs n ∧ (n : Int) = i) ∨
    ∃ ds : Digits 10, cs = '-' :: ds.chars ∧ -(ds.value : Int) = i

/-- Characters are a numeral, and stand for a word. -/
inductive Denotes : List Char → Word → Prop
  /-- After `0x` stand the bits of a word, of which the highest one is worth -2³¹. -/
  | pattern {cs : List Char} {n : Nat} {w : Word} : IsNatural 16 cs n → n < 2 ^ 32 →
      w.toInt = (if n < 2 ^ 31 then (n : Int) else n - 2 ^ 32) → Denotes ('0' :: 'x' :: cs) w
  /-- All others are the value of a word. -/
  | integer {cs : List Char} {i : Int} {w : Word} : ¬['0', 'x'] <+: cs → IsInteger cs i →
      -2 ^ 31 ≤ i → i < 2 ^ 31 → w.toInt = i → Denotes cs w

end Numeral

/-! ## Digits -/

variable {base n : Nat} {cs : List Char}

theorem mem_digitTable_of_digitValue? {c : Char} {d : Nat}
    (h : Numeral.digitValue? c = some d) : (c, d) ∈ digitTable := by
  have hle : ∀ a b : Char, a ≤ b ↔ a.toNat ≤ b.toNat := fun _ _ => Iff.rfl
  have hlast : c.toNat ≤ 'f'.toNat := by
    have hf : '9'.toNat ≤ 'f'.toNat ∧ 'F'.toNat ≤ 'f'.toNat := by decide
    simp only [Numeral.digitValue?, hle] at h
    split at h
    · omega
    split at h
    · omega
    split at h
    · omega
    · cases h
  -- There are so few characters up to the last digit that one can look at all of them.
  have hall : ∀ n ≤ 'f'.toNat, ∀ d ∈ Numeral.digitValue? (Char.ofNat n),
      (Char.ofNat n, d) ∈ digitTable := by decide
  have hmem := hall c.toNat hlast
  rw [Char.ofNat_toNat] at hmem
  exact hmem d h

/-- Characters that are read as digits are a row of digits. -/
theorem exists_row_of_mapM {values : List Nat} (h : cs.mapM (Numeral.digit? base) = some values) :
    ∃ row : List (Char × Nat), row.map Prod.fst = cs ∧ row.map Prod.snd = values ∧
      ∀ d ∈ row, d ∈ digitTable ∧ d.2 < base := by
  induction cs generalizing values with
  | nil =>
    cases h
    exact ⟨[], rfl, rfl, fun _ hd => absurd hd List.not_mem_nil⟩
  | cons c cs ih =>
    rw [List.mapM_cons] at h
    obtain ⟨d, hd, h⟩ := Option.bind_eq_some_iff.1 h
    obtain ⟨later, hlater, h⟩ := Option.bind_eq_some_iff.1 h
    cases h
    obtain ⟨row, rfl, rfl, hmem⟩ := ih hlater
    rw [Numeral.digit?, Option.filter_eq_some_iff, decide_eq_true_eq] at hd
    exact ⟨(c, d) :: row, rfl, rfl,
      List.forall_mem_cons.2 ⟨⟨mem_digitTable_of_digitValue? hd.1, hd.2⟩, hmem⟩⟩

namespace Numeral

theorem natural?_eq_some_iff :
    natural? base cs = some n ↔ ∃ ds : Digits base, cs = ds.chars ∧ ds.value = n := by
  constructor
  · intro h
    rw [natural?] at h
    split at h
    · cases h
    next hne =>
    obtain ⟨values, hvalues, rfl⟩ := Option.map_eq_some_iff.1 h
    obtain ⟨row, rfl, rfl, hmem⟩ := exists_row_of_mapM hvalues
    exact ⟨⟨row, fun hnil => hne (hnil ▸ rfl), hmem⟩, rfl, (Digits.foldl_eq_ofDigits _ _).symm⟩
  · rintro ⟨ds, rfl, rfl⟩
    exact ds.natural?_chars

/-! ## Numbers -/

theorem natural?_dropPlus_eq_some_iff :
    natural? base (dropPlus cs) = some n ↔ IsNatural base cs n := by
  rw [natural?_eq_some_iff]
  constructor
  · rintro ⟨ds, hchars, hvalue⟩
    refine ⟨ds, ?_, hvalue⟩
    rw [dropPlus.eq_def] at hchars
    split at hchars
    · exact .inr (congrArg _ hchars)
    · exact .inl hchars
  · rintro ⟨ds, rfl | rfl, hvalue⟩
    · exact ⟨ds, ds.dropPlus_chars, hvalue⟩
    · exact ⟨ds, rfl, hvalue⟩

theorem not_isNatural_of_minus : ¬IsNatural base ('-' :: cs) n := by
  rintro ⟨ds, hchars | hchars, _⟩
  · obtain ⟨c, later, heq, _, hminus⟩ := ds.exists_chars_eq
    rw [heq] at hchars
    exact hminus (List.cons.inj hchars).1.symm
  · exact absurd (List.cons.inj hchars).1 (by decide)

theorem integer?_minus : integer? ('-' :: cs) = (natural? 10 cs).map fun n : Nat => -(n : Int) := by
  rw [integer?]
  cases natural? 10 cs <;> rfl

theorem integer?_of_ne_minus (h : ∀ later, cs ≠ '-' :: later) :
    integer? cs = (natural? 10 (dropPlus cs)).map fun n : Nat => (n : Int) := by
  rw [integer?.eq_def]
  split
  · exact absurd rfl (h _)
  · cases natural? 10 (dropPlus cs) <;> rfl

theorem integer?_eq_some_iff {i : Int} : integer? cs = some i ↔ IsInteger cs i := by
  by_cases hminus : ∃ later, cs = '-' :: later
  · -- After a minus sign there is no other sign.
    obtain ⟨later, rfl⟩ := hminus
    simp only [integer?_minus, Option.map_eq_some_iff, natural?_eq_some_iff, IsInteger,
      not_isNatural_of_minus, false_and, exists_false, false_or]
    constructor
    · rintro ⟨_, ⟨ds, rfl, rfl⟩, hi⟩
      exact ⟨ds, rfl, hi⟩
    · rintro ⟨ds, hchars, hi⟩
      exact ⟨_, ⟨ds, (List.cons.inj hchars).2, rfl⟩, hi⟩
  · rw [integer?_of_ne_minus (not_exists.1 hminus), IsInteger, Option.map_eq_some_iff, or_iff_left]
    · simp only [natural?_dropPlus_eq_some_iff]
    · rintro ⟨ds, hchars, _⟩
      exact hminus ⟨_, hchars⟩

end Numeral

/-! ## Words -/

/-- The highest bit of a word is worth -2³¹. -/
theorem Word.toInt_ofBits (h : n < 2 ^ 32) :
    (Word.ofBits n).toInt = if n < 2 ^ 31 then (n : Int) else n - 2 ^ 32 := by
  have hbits : (Word.ofBits n).toBitVec.toNat = n := Word.bits_ofBits h
  rw [← Int32.toInt_toBitVec, BitVec.toInt_eq_toNat_cond, hbits]
  split <;> split <;> omega

namespace Numeral

variable {text : String} {w : Word}

theorem parse?_of_pattern (h : text.toList = '0' :: 'x' :: cs) :
    parse? text = some w ↔ ∃ n, IsNatural 16 cs n ∧ n < 2 ^ 32 ∧ Word.ofBits n = w := by
  rw [parse?, h]
  simp only [Option.bind_eq_some_iff, natural?_dropPlus_eq_some_iff]
  refine exists_congr fun n => and_congr_right fun _ => ?_
  change (if n < 2 ^ 32 then some (Word.ofBits n) else none) = some w ↔ _
  rw [Option.ite_none_right_eq_some, Option.some_inj]

theorem parse?_of_no_pattern (h : ¬['0', 'x'] <+: text.toList) :
    parse? text = some w ↔ IsInteger text.toList w.toInt := by
  rw [parse?]
  split
  · next cs heq => exact absurd ⟨cs, heq.symm⟩ h
  · rw [Option.bind_eq_some_iff]
    simp only [integer?_eq_some_iff, Word.toInt_ofInt?, eq_comm (a := w.toInt),
      exists_eq_right]

/-- A text is read as a word exactly if it is a numeral of that word. -/
theorem parse?_eq_some_iff : parse? text = some w ↔ Denotes text.toList w := by
  by_cases hprefix : ['0', 'x'] <+: text.toList
  · obtain ⟨cs, heq⟩ := hprefix
    rw [parse?_of_pattern heq.symm, ← heq]
    constructor
    · rintro ⟨n, hn, hlt, rfl⟩
      exact .pattern hn hlt (Word.toInt_ofBits hlt)
    · intro h
      cases h with
      | pattern hn hlt hw =>
        exact ⟨_, hn, hlt, Int32.toInt_inj.1 ((Word.toInt_ofBits hlt).trans hw.symm)⟩
      | integer hne _ _ _ _ => exact absurd (List.prefix_append _ cs) hne
  · rw [parse?_of_no_pattern hprefix]
    generalize text.toList = cs at hprefix ⊢
    constructor
    · exact fun h => .integer hprefix h w.le_toInt w.toInt_lt rfl
    · intro h
      cases h with
      | pattern _ _ _ => exact absurd (List.prefix_append ['0', 'x'] _) hprefix
      | integer _ hi _ _ hw => exact hw ▸ hi

/-- Numerals are read as the grammar says. A text is read as a word exactly if it is a numeral of
    that word: `0x` and the bits of the word in base sixteen, or, if it does not begin with `0x`,
    the value of the word in base ten. A text that is a numeral of no word is not read as one. -/
theorem parse_follows_grammar (text : String) :
    (∀ w, parse? text = some w ↔ Denotes text.toList w) ∧
      (parse? text = none ↔ ∀ w, ¬Denotes text.toList w) := by
  refine ⟨fun w => parse?_eq_some_iff, ?_⟩
  rw [Option.eq_none_iff_forall_ne_some]
  exact forall_congr' fun w => not_congr parse?_eq_some_iff

/-- Only the digits may be in upper case, and a sign is not a number by itself. -/
example : ["0xfF", "0Xff", "0x", "0x+F", "0x-F", "+", "--1", "+-1"].map parse? =
    [some 255, none, none, some 15, none, none, none, none] := by decide

end Numeral

end GridBots
