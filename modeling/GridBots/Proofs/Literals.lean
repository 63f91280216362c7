import GridBots.Proofs.Operands
import Mathlib.Data.Nat.Digits.Defs

/-!
# Integer literals

A *literal* is a text with the shape of an integer: decimal digits, maybe after a minus
sign, or hexadecimal digits after `0x` (`Literal`). It is read as the number that its digits
write, the value of each digit being that of its place, provided that the number fits into
a word (`Literal.exists_parse?`). If so, the operand that is the literal is that word
(`literals_as_written`).

A literal that does not fit is no numeral (`Literal.parse?_eq_none`), and hence a name like
any other: in a program it stands for what it is defined to be, and else for a variable. So
a number that does not fit need not be an error (`literal_is_variable`).
-/

namespace GridBots

open Layout (emitted)

/-! ## Shapes -/

/-- The characters that are digits, with their values. -/
def digitTable : List (Char × Nat) :=
  "0123456789".toList.zipIdx ++ "abcdef".toList.zipIdx 10 ++ "ABCDEF".toList.zipIdx 10

/-- Digits of a base with their values, at least one of them. -/
structure Digits (base : Nat) where
  row : List (Char × Nat)
  row_ne_nil : row ≠ []
  mem : ∀ d ∈ row, d ∈ digitTable ∧ d.2 < base

namespace Digits

variable {base : Nat}

def chars (ds : Digits base) : List Char :=
  ds.row.map Prod.fst

/-- The number that digits write in their base. -/
def value (ds : Digits base) : Nat :=
  Nat.ofDigits base (ds.row.map Prod.snd).reverse

end Digits

/-- The shapes of integers. -/
inductive Literal
  | decimal (digits : Digits 10)
  | negative (digits : Digits 10)
  | pattern (digits : Digits 16)

namespace Literal

def text : Literal → String
  | decimal ds => String.ofList ds.chars
  | negative ds => String.ofList ('-' :: ds.chars)
  | pattern ds => String.ofList ('0' :: 'x' :: ds.chars)

/-- Whether the number that a literal writes is one of a word. Hexadecimal ones write the bits
    of a word. -/
def Fits : Literal → Prop
  | decimal ds => ds.value < 0x80000000
  | negative ds => ds.value ≤ 0x80000000
  | pattern ds => ds.value < 0x100000000

/-- The word `w` is the number that a literal writes. -/
def IsWord (w : Word) : Literal → Prop
  | decimal ds => w.toInt = ds.value
  | negative ds => w.toInt = -(ds.value : Int)
  | pattern ds => w.bits = ds.value

end Literal

/-! ## Digits -/

namespace Digits

variable {base : Nat} (ds : Digits base)

theorem foldl_eq_ofDigits (base : Nat) (values : List Nat) :
    values.foldl (fun n d => n * base + d) 0 = Nat.ofDigits base values.reverse := by
  induction values using List.reverseRecOn with
  | nil => rfl
  | append_singleton values d ih =>
    rw [List.foldl_append, ih, List.reverse_append, List.reverse_singleton, List.singleton_append,
      Nat.ofDigits_cons, List.foldl_cons, List.foldl_nil, Nat.mul_comm, Nat.add_comm]

theorem digit?_of_mem {d : Char × Nat} (h : d ∈ digitTable) (hb : d.2 < base) :
    Numeral.digit? base d.1 = some d.2 := by
  have hvalues : ∀ d ∈ digitTable, Numeral.digitValue? d.1 = some d.2 := by decide
  rw [Numeral.digit?, hvalues d h, Option.filter_some, if_pos (decide_eq_true hb)]

theorem natural?_chars : Numeral.natural? base ds.chars = some ds.value := by
  have hmap : ∀ row : List (Char × Nat), (∀ d ∈ row, d ∈ digitTable ∧ d.2 < base) →
      (row.map Prod.fst).mapM (Numeral.digit? base) = some (row.map Prod.snd) := by
    intro row hrow
    induction row with
    | nil => rfl
    | cons d row ih =>
      obtain ⟨hd, hb⟩ := hrow d List.mem_cons_self
      rw [List.map_cons, List.mapM_cons, digit?_of_mem hd hb,
        ih fun d' h => hrow d' (List.mem_cons_of_mem _ h)]
      rfl
  have hne : ds.chars.isEmpty = false := by
    rw [List.isEmpty_eq_false_iff, chars, ne_eq, List.map_eq_nil_iff]
    exact ds.row_ne_nil
  rw [Numeral.natural?, if_neg (by rw [hne]; exact Bool.false_ne_true), chars, hmap _ ds.mem,
    Option.map_some, Numeral.ofDigits, foldl_eq_ofDigits, value]

theorem exists_chars_eq : ∃ c cs, ds.chars = c :: cs ∧ c ≠ '+' ∧ c ≠ '-' := by
  have hsigns : ∀ d ∈ digitTable, d.1 ≠ '+' ∧ d.1 ≠ '-' := by decide
  obtain ⟨d, row, hrow⟩ := List.exists_cons_of_ne_nil ds.row_ne_nil
  obtain ⟨hplus, hminus⟩ := hsigns d (ds.mem d (hrow ▸ List.mem_cons_self)).1
  exact ⟨d.1, row.map Prod.fst, by rw [chars, hrow]; rfl, hplus, hminus⟩

theorem dropPlus_chars : Numeral.dropPlus ds.chars = ds.chars := by
  obtain ⟨c, cs, h, hplus, _⟩ := ds.exists_chars_eq
  rw [h, Numeral.dropPlus.eq_def]
  split
  · next heq => exact absurd (List.cons.inj heq).1 hplus
  · rfl

theorem x_not_mem_chars : 'x' ∉ ds.chars := by
  have hx : ∀ d ∈ digitTable, d.1 ≠ 'x' := by decide
  rw [chars, List.mem_map]
  rintro ⟨d, hd, heq⟩
  exact hx d (ds.mem d hd).1 heq

end Digits

/-! ## Literals are read -/

namespace Literal

variable {l : Literal}

theorem parse?_of_not_pattern {cs : List Char} (h : 'x' ∉ cs) :
    Numeral.parse? (String.ofList cs) = (Numeral.integer? cs).bind Word.ofInt? := by
  rw [Numeral.parse?, String.toList_ofList]
  split
  · exact absurd (List.mem_cons_of_mem _ List.mem_cons_self) h
  · rfl

theorem parse?_decimal (ds : Digits 10) :
    Numeral.parse? (decimal ds).text = Word.ofInt? ds.value := by
  obtain ⟨c, cs, h, _, hminus⟩ := ds.exists_chars_eq
  have hinteger : Numeral.integer? ds.chars = some (ds.value : Int) := by
    rw [Numeral.integer?.eq_def]
    split
    · next heq =>
      rw [h] at heq
      exact absurd (List.cons.inj heq).1 hminus
    · rw [ds.dropPlus_chars, ds.natural?_chars]
      rfl
  rw [text, parse?_of_not_pattern ds.x_not_mem_chars, hinteger, Option.bind_some]

theorem parse?_negative (ds : Digits 10) :
    Numeral.parse? (negative ds).text = Word.ofInt? (-(ds.value : Int)) := by
  have hx : 'x' ∉ '-' :: ds.chars := by
    rw [List.mem_cons]
    exact fun h => h.elim (by decide) ds.x_not_mem_chars
  have hinteger : Numeral.integer? ('-' :: ds.chars) = some (-(ds.value : Int)) := by
    rw [Numeral.integer?, ds.natural?_chars]
    rfl
  rw [text, parse?_of_not_pattern hx, hinteger, Option.bind_some]

theorem parse?_pattern (ds : Digits 16) :
    Numeral.parse? (pattern ds).text =
      if ds.value < Word.count then some (Word.ofBits ds.value) else none := by
  rw [text, Numeral.parse?, String.toList_ofList]
  change (Numeral.natural? 16 (Numeral.dropPlus ds.chars)).bind _ = _
  rw [ds.dropPlus_chars, ds.natural?_chars, Option.bind_some]

/-- A literal that fits is read as the number that it writes. -/
theorem exists_parse? (h : l.Fits) : ∃ w, Numeral.parse? l.text = some w ∧ l.IsWord w := by
  cases l with
  | decimal ds =>
    have hlt : ds.value < 0x80000000 := h
    rw [parse?_decimal]
    refine ⟨_, if_pos ⟨by omega, by omega⟩, ?_⟩
    exact Word.toInt_ofInt?.1 (if_pos ⟨by omega, by omega⟩)
  | negative ds =>
    have hle : ds.value ≤ 0x80000000 := h
    rw [parse?_negative]
    refine ⟨_, if_pos ⟨by omega, by omega⟩, ?_⟩
    exact Word.toInt_ofInt?.1 (if_pos ⟨by omega, by omega⟩)
  | pattern ds =>
    have hlt : ds.value < Word.count := h
    rw [parse?_pattern, if_pos hlt]
    exact ⟨_, rfl, Word.bits_ofBits hlt⟩

/-- A literal that does not fit is no numeral. -/
theorem parse?_eq_none (h : ¬l.Fits) : Numeral.parse? l.text = none := by
  cases l with
  | decimal ds =>
    have hle : ¬ds.value < 0x80000000 := h
    rw [parse?_decimal]
    exact if_neg (by omega)
  | negative ds =>
    have hlt : ¬ds.value ≤ 0x80000000 := h
    rw [parse?_negative]
    exact if_neg (by omega)
  | pattern ds =>
    have hle : ¬ds.value < Word.count := h
    rw [parse?_pattern, if_neg hle]

/-- A text is no built-in name if none begins with the same character. -/
theorem builtin?_eq_none_of_head? {text : String} {c : Char} (h : text.toList.head? = some c)
    (hs : ∀ e ∈ Opcode.spellings, e.1.toList.head? ≠ some c.toUpper)
    (hr : ∀ e ∈ SymbolTable.registers, e.1.toList.head? ≠ some c) :
    SymbolTable.builtin? text = none := by
  rw [SymbolTable.builtin?, Piece.ofMnemonic?_eq_none_of_head? h hs, List.lookup_eq_none_iff]
  intro e he
  rw [bne_iff_ne]
  exact fun heq => hr e he (heq ▸ h)

/-- A literal begins with a decimal digit or a minus sign. -/
theorem exists_head?_text (l : Literal) :
    ∃ c ∈ "-0123456789".toList, l.text.toList.head? = some c := by
  cases l with
  | decimal ds =>
    have hdigits : ∀ d ∈ digitTable, d.2 < 10 → d.1 ∈ "-0123456789".toList := by decide
    obtain ⟨d, row, hrow⟩ := List.exists_cons_of_ne_nil ds.row_ne_nil
    obtain ⟨hmem, hlt⟩ := ds.mem d (hrow ▸ List.mem_cons_self)
    refine ⟨d.1, hdigits d hmem hlt, ?_⟩
    rw [text, String.toList_ofList, Digits.chars, hrow]
    rfl
  | negative ds => exact ⟨'-', by decide, by rw [text, String.toList_ofList]; rfl⟩
  | pattern ds => exact ⟨'0', by decide, by rw [text, String.toList_ofList]; rfl⟩

theorem builtin?_text (l : Literal) : SymbolTable.builtin? l.text = none := by
  have hnames : "-0123456789".toList.all (fun c =>
      (∀ e ∈ Opcode.spellings, e.1.toList.head? ≠ some c.toUpper) ∧
        ∀ e ∈ SymbolTable.registers, e.1.toList.head? ≠ some c) = true := by decide
  obtain ⟨c, hc, hhead⟩ := l.exists_head?_text
  obtain ⟨hs, hr⟩ := of_decide_eq_true (List.all_eq_true.1 hnames c hc)
  exact builtin?_eq_none_of_head? hhead hs hr

end Literal

/-! ## Literals in programs -/

namespace Source

variable {s : Source} {p : Program}

/-- The word of an operand is what the operand stands for. -/
theorem IsOperand.getElem?_words {i : Nat} {t : Token} (hi : s.IsOperand i t) (st : s.Stages p) :
    p.words[emitted (s.body.take i)]? = s.word? t.operandText := by
  rw [Layout.emitted_eq_widthOf, st.word_of_operand hi.pieces_eq, st.value?_symbols]

theorem IsOperand.exists_getElem?_words {i : Nat} {t : Token} (hi : s.IsOperand i t)
    (st : s.Stages p) : ∃ w, p.words[emitted (s.body.take i)]? = some w := by
  rw [Layout.emitted_eq_widthOf]
  exact st.exists_word hi.pieces_eq rfl

theorem word?_of_parse? {text : String} {w : Word} (h : Numeral.parse? text = some w) :
    s.word? text = some w := by
  rw [word?, referent, Referent.ofText, h]
  rfl

/-- What a name stands for that is neither a numeral nor built in. -/
theorem word?_of_name {text : String} (h : Numeral.parse? text = none)
    (hb : SymbolTable.builtin? text = none) :
    s.word? text = match s.definition? text with
      | some (.number v) => some v
      | some (.name target) => (Referent.ofTarget s.definition? target).word? s.address?
      | none => s.address? text := by
  rw [word?, referent, Referent.ofText, h, hb]
  cases s.definition? text with
  | none => rfl
  | some symbol => cases symbol <;> rfl

end Source

/-- An operand that has the shape of an integer is the word with that value, if there is one.
    If there is none, it is a name, which stands for what it is defined to be, or else for a
    variable with an address of its own. -/
theorem literals_as_written {s : Source} {p : Program} (h : s.assemble = .ok p) {i : Nat}
    {t : Token} (hi : s.IsOperand i t) {l : Literal} (ht : t.operandText = l.text) :
    (l.Fits → ∃ w, p.words[emitted (s.body.take i)]? = some w ∧ l.IsWord w) ∧
      (¬l.Fits →
        (∀ v, s.definition? l.text = some (.number v) →
          p.words[emitted (s.body.take i)]? = some v) ∧
        (∀ target, s.definition? l.text = some (.name target) →
          p.words[emitted (s.body.take i)]? =
            (Referent.ofTarget s.definition? target).word? s.address?) ∧
        (s.definition? l.text = none →
          ∃ (index : Nat) (w : Word), s.variableNames[index]? = some l.text ∧
            p.words[emitted (s.body.take i)]? = some w ∧ w.toInt = 3000 + index ∧
            w.toInt < 4000)) := by
  obtain ⟨st⟩ := Source.nonempty_stages_iff.1 h
  have hword := hi.getElem?_words st
  rw [ht] at hword
  refine ⟨fun hf => ?_, fun hf => ?_⟩
  · obtain ⟨w, hw, hl⟩ := Literal.exists_parse? hf
    exact ⟨w, hword.trans (Source.word?_of_parse? hw), hl⟩
  · have hname := Source.word?_of_name (s := s) (Literal.parse?_eq_none hf) l.builtin?_text
    refine ⟨fun v hv => ?_, fun target hv => ?_, fun hv => ?_⟩
    · rw [hword, hname, hv]
    · rw [hword, hname, hv]
    · rw [hv] at hname
      -- There is a word, which must then be the address of the variable.
      obtain ⟨w, hw⟩ := hi.exists_getElem?_words st
      have haddress : s.address? l.text = some w := hname.symm.trans (hword.symm.trans hw)
      obtain ⟨index, hindex, hv⟩ := Source.address?_eq_some_iff.1 haddress
      have hlt : index < SymbolTable.variableCap :=
        Nat.lt_of_lt_of_le (List.getElem?_eq_some_iff.1 hindex).1 st.length_variableNames_le
      have hcap : index < 1000 := hlt
      have hint := SymbolTable.toInt_variableAddress hlt
      rw [hv] at hint
      exact ⟨index, w, hindex, hw, hint, by omega⟩

/-- The bits of the least word. -/
def Literal.least : Literal :=
  .pattern ⟨('8', 8) :: List.replicate 7 ('0', 0), List.cons_ne_nil _ _, by decide⟩

/-- The number after the greatest word. -/
def Literal.overflow : Literal :=
  .decimal ⟨[('2', 2), ('1', 1), ('4', 4), ('7', 7), ('4', 4), ('8', 8), ('3', 3), ('6', 6),
    ('4', 4), ('8', 8)], List.cons_ne_nil _ _, by decide⟩

theorem Literal.fits_least : least.Fits := by
  change Digits.value _ < 0x100000000
  decide

theorem Literal.not_fits_overflow : ¬overflow.Fits := by
  change ¬Digits.value _ < 0x80000000
  decide

/-- A source with one literal that fits and one that does not. -/
def Source.overflowing : Source where
  tokens := #[⟨"ADD", 1⟩, ⟨"#0x80000000", 1⟩, ⟨"2147483648", 1⟩]
  lineCount := 1

/-- The program that this source becomes. -/
def Program.overflowing : Program where
  cells := [⟨1342177281, 1⟩, ⟨-2147483648, 1⟩, ⟨3000, 1⟩, ⟨0, 2⟩]
  variableCount := 1

theorem Source.assemble_overflowing : Source.overflowing.assemble = .ok Program.overflowing := by
  decide +kernel

theorem Source.isOperand_overflow : Source.overflowing.IsOperand 2 ⟨"2147483648", 1⟩ := by
  refine ⟨rfl, by decide, by decide, fun j d hj hd => ?_⟩
  obtain rfl : j = 1 := by omega
  obtain rfl : ⟨"#0x80000000", 1⟩ = d := Option.some.inj hd
  decide

theorem literals_as_written_least :
    Source.overflowing.assemble = .ok Program.overflowing ∧
      Source.overflowing.IsOperand 1 ⟨"#0x80000000", 1⟩ ∧
      (⟨"#0x80000000", 1⟩ : Token).operandText = Literal.least.text ∧ Literal.least.Fits ∧
      (∃ w, Program.overflowing.words[1]? = some w ∧ Literal.least.IsWord w) ∧
      Source.overflowing.IsOperand 2 ⟨"2147483648", 1⟩ ∧
      (⟨"2147483648", 1⟩ : Token).operandText = Literal.overflow.text ∧ ¬Literal.overflow.Fits ∧
      Source.overflowing.definition? Literal.overflow.text = none ∧
      ∃ (index : Nat) (w : Word),
        Source.overflowing.variableNames[index]? = some Literal.overflow.text ∧
          Program.overflowing.words[2]? = some w ∧ w.toInt = 3000 + index ∧ w.toInt < 4000 := by
  have hleast : Source.overflowing.IsOperand 1 ⟨"#0x80000000", 1⟩ := by
    refine ⟨rfl, by decide, by decide, fun j d hj hd => ?_⟩
    obtain rfl : j = 0 := by omega
    obtain rfl : ⟨"ADD", 1⟩ = d := Option.some.inj hd
    decide
  have htext : (⟨"#0x80000000", 1⟩ : Token).operandText = Literal.least.text := by decide
  have htext' : (⟨"2147483648", 1⟩ : Token).operandText = Literal.overflow.text := by decide
  have hdefinition : Source.overflowing.definition? Literal.overflow.text = none := by decide
  exact ⟨Source.assemble_overflowing, hleast, htext, Literal.fits_least,
    (literals_as_written Source.assemble_overflowing hleast htext).1 Literal.fits_least,
    Source.isOperand_overflow, htext', Literal.not_fits_overflow, hdefinition,
    ((literals_as_written Source.assemble_overflowing Source.isOperand_overflow htext').2
      Literal.not_fits_overflow).2.2 hdefinition⟩

/-- A literal that does not fit may be an operand of a program all the same: here it stands for
    the address of a variable, which is another number. -/
theorem literal_is_variable :
    Source.ofText "ADD #0x80000000 2147483648" = .ok Source.overflowing ∧
      Source.overflowing.assemble = .ok Program.overflowing ∧
      Source.overflowing.IsOperand 2 ⟨"2147483648", 1⟩ ∧
      (⟨"2147483648", 1⟩ : Token).operandText = Literal.overflow.text ∧
      Program.overflowing.words[2]? = some 3000 ∧ ¬Literal.overflow.IsWord 3000 := by
  refine ⟨by decide +kernel, Source.assemble_overflowing, Source.isOperand_overflow, by decide, rfl,
    ?_⟩
  change ¬(3000 : Word).toInt = Digits.value _
  decide

end GridBots
