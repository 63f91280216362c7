import GridBots.Proofs.Reading
import GridBots.Proofs.Resemblance
import Mathlib.Logic.Embedding.Basic
import Mathlib.Logic.Equiv.Basic

/-!
# Renaming

A program may choose its names freely, as long as they are *ordinary* (`IsOrdinary`): not
numerals, not built in, and such that they are one word of a text. If all ordinary names of a
text are replaced by others, and different ones by different ones, the text becomes the same
program, with the same lines, or has the same error on the same line (`assembled_renamed`).

A text is replaced word by word (`Source.replaceText`): its blanks, comments and lines stay as
they are, and the words on a line are the replaced ones (`Source.codeWords_replaceText`). A
renaming of all names keeps apart what the assembler does, so that it is a resemblance in which
lines are the same (`Resemblance.renaming`).
-/

namespace GridBots

/-! ## Texts with other words -/

namespace Text

/-- A word that is replaced, if it is one: it must not be empty. -/
def replaceWord (f : String → String) (word : List Char) : List Char :=
  if word.isEmpty then [] else (f (String.ofList word)).toList

/-- The characters of a line with its words replaced, where `word` has been read of the
    first one. -/
def replaceWords (f : String → String) : (word : List Char) → List Char → List Char
  | word, [] => replaceWord f word
  | word, c :: cs =>
    if isBlank c then replaceWord f word ++ c :: replaceWords f [] cs
    else replaceWords f (word ++ [c]) cs

end Text

namespace Source

/-- A line with the words before its comment replaced. -/
def replaceLine (f : String → String) (line : List Char) : List Char :=
  Text.replaceWords f [] (line.takeWhile (· ≠ commentMarker)) ++ line.dropWhile (· ≠ commentMarker)

/-- A text with the words of all lines replaced. -/
def replaceText (f : String → String) (text : String) : String :=
  String.ofList (['\n'].intercalate ((text.toList.splitOn '\n').map (replaceLine f)))

/-- Words that are replaced stay words: they do not become empty, and get no character that
    separates words, ends a line or begins a comment. -/
structure KeepsWords (f : String → String) : Prop where
  ne_empty : ∀ {word}, word ≠ "" → f word ≠ ""
  mem_or : ∀ {word c}, c ∈ (f word).toList →
    c ∈ word.toList ∨ isSeparator c = false ∧ c ≠ commentMarker

end Source

namespace Text

open Source (KeepsWords isSeparator)

variable {f : String → String} {word cs : List Char} {c : Char}

theorem isBlank_eq_false_of_isSeparator (h : isSeparator c = false) : isBlank c = false :=
  (Bool.or_eq_false_iff.1 h).1

theorem words_replaceWord (hf : KeepsWords f) (h : ∀ c ∈ word, isBlank c = false) :
    words (replaceWord f word) = (words word).map f := by
  rw [words_of_isBlank h, replaceWord]
  split
  · rfl
  next hne =>
  have hword : String.ofList word ≠ "" := fun heq => hne <| by
    rw [← String.toList_ofList (l := word), heq]
    rfl
  have hblank : ∀ c ∈ (f (String.ofList word)).toList, isBlank c = false := by
    intro c hc
    rcases hf.mem_or hc with hc | hc
    · exact h c (by rwa [String.toList_ofList] at hc)
    · exact isBlank_eq_false_of_isSeparator hc.1
  have hnonempty : ¬(f (String.ofList word)).toList.isEmpty = true := fun hnil =>
    hf.ne_empty hword (String.toList_eq_nil_iff.1 (List.isEmpty_iff.1 hnil))
  rw [words_of_isBlank hblank, if_neg hnonempty, String.ofList_toList]
  rfl

theorem words_replaceWords (hf : KeepsWords f) (h : ∀ c ∈ word, isBlank c = false) :
    words (replaceWords f word cs) = (words (word ++ cs)).map f := by
  induction cs generalizing word with
  | nil => rw [replaceWords, words_replaceWord hf h, List.append_nil]
  | cons c cs ih =>
    rw [replaceWords]
    by_cases hc : isBlank c = true
    · rw [if_pos hc, words_append_cons hc, words_replaceWord hf h,
        ih fun _ hd => absurd hd List.not_mem_nil, words_append_cons hc, List.map_append,
        List.nil_append]
    · rw [if_neg hc, ih, List.append_assoc, List.singleton_append]
      intro d hd
      rcases List.mem_append.1 hd with hd | hd
      · exact h d hd
      · exact List.mem_singleton.1 hd ▸ Bool.eq_false_iff.2 hc

theorem mem_replaceWord (hf : KeepsWords f) (h : c ∈ replaceWord f word) :
    c ∈ word ∨ isSeparator c = false ∧ c ≠ Source.commentMarker := by
  rw [replaceWord] at h
  split at h
  · exact absurd h List.not_mem_nil
  · have hc := hf.mem_or h
    rwa [String.toList_ofList] at hc

/-- The characters of replaced words are those that have been there, or can stand in words. -/
theorem mem_replaceWords (hf : KeepsWords f) (h : c ∈ replaceWords f word cs) :
    c ∈ word ++ cs ∨ isSeparator c = false ∧ c ≠ Source.commentMarker := by
  induction cs generalizing word with
  | nil =>
    rw [List.append_nil]
    exact mem_replaceWord hf h
  | cons d cs ih =>
    rw [replaceWords] at h
    split at h
    · rcases List.mem_append.1 h with h | h
      · exact (mem_replaceWord hf h).imp_left (List.mem_append_left _)
      rcases List.mem_cons.1 h with rfl | h
      · exact .inl (List.mem_append_right _ List.mem_cons_self)
      · exact (ih h).imp_left fun h => List.mem_append_right _ (List.mem_cons_of_mem _ h)
    · have hc := ih h
      rwa [List.append_assoc, List.singleton_append] at hc

/-- Words are replaced by words, so that nothing vanishes. -/
theorem replaceWords_eq_nil_iff (hf : KeepsWords f) (word cs : List Char) :
    replaceWords f word cs = [] ↔ word ++ cs = [] := by
  induction cs generalizing word with
  | nil =>
    rw [replaceWords, replaceWord, List.append_nil]
    cases word with
    | nil => exact iff_of_true rfl rfl
    | cons c word =>
      have hword : String.ofList (c :: word) ≠ "" := fun heq => nomatch String.ofList_inj.1 heq
      rw [if_neg (fun h => nomatch h)]
      exact iff_of_false (fun h => hf.ne_empty hword (String.toList_eq_nil_iff.1 h))
        (fun h => nomatch h)
  | cons c cs ih =>
    rw [replaceWords]
    split
    · simp
    · rw [ih, List.append_assoc, List.singleton_append]

end Text

namespace Source

variable {f : String → String} {line cs : List Char}

theorem takeWhile_dropWhile {α : Type} (p : α → Bool) (l : List α) :
    (l.dropWhile p).takeWhile p = [] := by
  have hhead := List.head?_dropWhile_not p l
  rw [← List.head?_eq_none_iff, List.head?_takeWhile]
  cases hd : (l.dropWhile p).head? with
  | none => rfl
  | some a =>
    rw [hd] at hhead
    rw [Option.filter_some, if_neg (Bool.eq_false_iff.1 hhead)]

/-- The comment of a line begins where it has begun before. -/
theorem takeWhile_replaceLine (hf : KeepsWords f) (line : List Char) :
    (replaceLine f line).takeWhile (· ≠ commentMarker) =
      Text.replaceWords f [] (line.takeWhile (· ≠ commentMarker)) := by
  have hcode : ∀ c ∈ Text.replaceWords f [] (line.takeWhile (· ≠ commentMarker)),
      decide (c ≠ commentMarker) = true := by
    intro c hc
    rcases Text.mem_replaceWords hf hc with hc | hc
    · exact List.all_eq_true.1 List.all_takeWhile c hc
    · exact decide_eq_true hc.2
  rw [replaceLine, List.takeWhile_append_of_pos hcode, takeWhile_dropWhile, List.append_nil]

/-- The words of a line are the replaced ones. -/
theorem codeWords_replaceLine (hf : KeepsWords f) (line : List Char) :
    codeWords (String.ofList (replaceLine f line)) = (codeWords (String.ofList line)).map f := by
  rw [codeWords, codeWords, String.toList_ofList, String.toList_ofList,
    takeWhile_replaceLine hf, Text.words_replaceWords hf fun _ hc => absurd hc List.not_mem_nil,
    List.nil_append]

theorem not_mem_replaceLine (hf : KeepsWords f) (h : '\n' ∉ line) : '\n' ∉ replaceLine f line := by
  intro hmem
  rcases List.mem_append.1 hmem with hc | hc
  · rcases Text.mem_replaceWords hf hc with hc | hc
    · exact h (List.takeWhile_subset _ hc)
    · exact absurd hc.1 (by decide)
  · exact h (List.dropWhile_subset _ hc)

theorem replaceLine_eq_nil_iff (hf : KeepsWords f) (line : List Char) :
    replaceLine f line = [] ↔ line = [] := by
  rw [replaceLine, List.append_eq_nil_iff, Text.replaceWords_eq_nil_iff hf, List.nil_append,
    ← List.append_eq_nil_iff, List.takeWhile_append_dropWhile]

/-- No line that a text is divided into has the end of a line in it. -/
theorem not_mem_of_mem_splitOn {c : Char} (h : line ∈ cs.splitOn c) : c ∉ line := by
  induction cs generalizing line with
  | nil =>
    rw [List.splitOn_nil, List.mem_singleton] at h
    exact h ▸ List.not_mem_nil
  | cons d cs ih =>
    rw [List.splitOn_eq_splitOnP] at ih h
    rw [List.splitOnP_cons_eq_if_modifyHead] at h
    split at h
    · rcases List.mem_cons.1 h with rfl | h
      · exact List.not_mem_nil
      · exact ih h
    · next hd =>
      obtain ⟨first, rest, hsplit⟩ := List.exists_cons_of_ne_nil (List.splitOnP_ne_nil (· == c) cs)
      rw [hsplit, List.modifyHead_cons] at h
      rw [hsplit] at ih
      rcases List.mem_cons.1 h with rfl | h
      · intro hmem
        rcases List.mem_cons.1 hmem with rfl | hmem
        · exact hd (beq_self_eq_true c)
        · exact ih List.mem_cons_self hmem
      · exact ih (List.mem_cons_of_mem _ h)

theorem codeWords_dropReturn (line : List Char) :
    codeWords (String.ofList (Text.dropReturn line)) = codeWords (String.ofList line) := by
  rw [codeWords, codeWords, String.toList_ofList, String.toList_ofList,
    words_takeWhile_dropReturn]

theorem codeWords_endedLines (hf : KeepsWords f) (lines : List (List Char)) :
    (Text.endedLines (lines.map (replaceLine f))).map (fun line => codeWords (String.ofList line)) =
      (Text.endedLines lines).map fun line => (codeWords (String.ofList line)).map f := by
  induction lines using Text.endedLines.induct with
  | case1 => rfl
  | case2 last h =>
    have hlast : (replaceLine f last).isEmpty = true :=
      List.isEmpty_iff.2 ((replaceLine_eq_nil_iff hf last).2 (List.isEmpty_iff.1 h))
    rw [List.map_cons, List.map_nil, Text.endedLines, if_pos hlast, Text.endedLines, if_pos h]
    rfl
  | case3 last h =>
    have hlast : ¬(replaceLine f last).isEmpty = true := fun hnil =>
      h (List.isEmpty_iff.2 ((replaceLine_eq_nil_iff hf last).1 (List.isEmpty_iff.1 hnil)))
    rw [List.map_cons, List.map_nil, Text.endedLines, if_neg hlast, Text.endedLines, if_neg h]
    exact congrArg (fun words => [words]) (codeWords_replaceLine hf last)
  | case4 line next rest ih =>
    rw [List.map_cons] at ih
    rw [List.map_cons, List.map_cons, Text.endedLines, Text.endedLines, List.map_cons,
      List.map_cons, ih, codeWords_dropReturn, codeWords_dropReturn, codeWords_replaceLine hf]

/-- The words on the lines of a text are the replaced ones. -/
theorem codeWords_replaceText (hf : KeepsWords f) (text : String) :
    (Text.lines (replaceText f text)).map codeWords =
      (Text.lines text).map fun line => (codeWords line).map f := by
  have hlines : ∀ line ∈ (text.toList.splitOn '\n').map (replaceLine f), '\n' ∉ line := by
    intro line hline
    obtain ⟨old, hold, rfl⟩ := List.mem_map.1 hline
    exact not_mem_replaceLine hf (not_mem_of_mem_splitOn hold)
  have hne : (text.toList.splitOn '\n').map (replaceLine f) ≠ [] := by
    rw [ne_eq, List.map_eq_nil_iff, List.splitOn_eq_splitOnP]
    exact List.splitOnP_ne_nil _ _
  have hsplit := List.splitOn_intercalate '\n' hlines hne
  rw [List.splitOn_eq_splitOnP] at hsplit
  rw [Text.lines, Text.lines, replaceText, String.toList_ofList, hsplit, List.map_map, List.map_map]
  exact codeWords_endedLines hf _

end Source

/-! ## Texts whose words resemble each other -/

namespace Resemblance

variable {R : Resemblance}

/-- Words that are tokens which resemble each other, or are refused, on whatever line. -/
structure Words (R : Resemblance) (a b : String) : Prop where
  tokens : ∀ {m n}, R.line m n → R.Tokens ⟨a, m⟩ ⟨b, n⟩
  reservedDelimiter_mem_iff :
    Token.reservedDelimiter ∈ a.toList ↔ Token.reservedDelimiter ∈ b.toList

/-- What has been read of two texts. -/
structure Readings (R : Resemblance) (s s' : Source) : Prop where
  tokens : List.Forall₂ R.Tokens s.tokens.toList s'.tokens.toList
  line : R.line s.lineCount s'.lineCount

variable {s s' : Source} {a b line line' : String} {words words' : List String}

theorem Readings.size_eq (h : R.Readings s s') : s.tokens.size = s'.tokens.size := by
  rw [← Array.length_toList, h.tokens.length_eq, Array.length_toList]

theorem Readings.push (h : R.Readings s s') (hw : R.Words a b) :
    R.Readings (s.push a) (s'.push b) := by
  refine ⟨?_, h.line⟩
  rw [Source.push, Source.push, Array.toList_push, Array.toList_push]
  exact List.rel_append h.tokens (.cons (hw.tokens h.line) .nil)

theorem Readings.refusal? (h : R.Readings s s') (hw : R.Words a b) :
    Option.Rel R.Errors (s.refusal? a) (s'.refusal? b) := by
  rw [Source.refusal?, Source.refusal?, ← h.size_eq]
  simp only [hw.reservedDelimiter_mem_iff]
  split
  · exact .some ⟨rfl, h.line⟩
  split
  · exact .some ⟨rfl, h.line⟩
  · exact .none

theorem Readings.accept (h : R.Readings s s') (hw : List.Forall₂ R.Words words words') :
    R.Readings (s.accept words).1 (s'.accept words').1 ∧
      Option.Rel R.Errors (s.accept words).2 (s'.accept words').2 := by
  induction hw generalizing s s' with
  | nil => exact ⟨h, .none⟩
  | @cons a b words words' hab _ ih =>
    rw [Source.accept, Source.accept]
    rcases eq_none_or_eq_some_of_rel (h.refusal? hab) with ⟨h₁, h₂⟩ | ⟨_, _, h₁, h₂, he⟩ <;>
      rw [h₁, h₂]
    · exact ih (h.push hab)
    · exact ⟨h, .some he⟩

theorem Readings.addLine (h : R.Readings s s')
    (hw : List.Forall₂ R.Words (Source.codeWords line) (Source.codeWords line')) :
    R.Readings (s.addLine line).1 (s'.addLine line').1 ∧
      Option.Rel R.Errors (s.addLine line).2 (s'.addLine line').2 :=
  Readings.accept ⟨h.tokens, R.lineAfter h.line⟩ hw

theorem Readings.addLine? (h : R.Readings s s')
    (hw : List.Forall₂ R.Words (Source.codeWords line) (Source.codeWords line')) :
    ResultRel R.Errors R.Readings (s.addLine? line) (s'.addLine? line') := by
  have hadd := h.addLine hw
  rw [Source.addLine?, Source.addLine?]
  generalize s.addLine line = x at hadd ⊢
  generalize s'.addLine line' = x' at hadd ⊢
  obtain ⟨t, e?⟩ := x
  obtain ⟨t', e?'⟩ := x'
  obtain ⟨ht, he⟩ := hadd
  cases he with
  | none => exact .ok ht
  | some he => exact .error he

theorem Readings.foldlM {lines lines' : List String} (h : R.Readings s s')
    (hw : List.Forall₂ (List.Forall₂ R.Words) (lines.map Source.codeWords)
      (lines'.map Source.codeWords)) :
    ResultRel R.Errors R.Readings (lines.foldlM Source.addLine? s)
      (lines'.foldlM Source.addLine? s') := by
  rw [List.forall₂_map_left_iff, List.forall₂_map_right_iff] at hw
  induction hw generalizing s s' with
  | nil => exact .ok h
  | cons hline _ ih =>
    rw [List.foldlM_cons, List.foldlM_cons]
    exact (h.addLine? hline).bind fun _ _ h => ih h

theorem sources_of_forall₂ {tokens tokens' : List Token}
    (h : List.Forall₂ R.Tokens tokens tokens') :
    R.Sources tokens tokens' := by
  refine ⟨h.length_eq, fun i t t' hi hi' => .inl ?_⟩
  obtain ⟨hlt, rfl⟩ := List.getElem?_eq_some_iff.1 hi
  obtain ⟨hlt', rfl⟩ := List.getElem?_eq_some_iff.1 hi'
  exact h.get hlt hlt'

/-- Texts whose words resemble each other line by line become programs that do, or have errors
    that do. -/
theorem assemble_text {text text' : String} (hzero : R.line 0 0)
    (hw : List.Forall₂ (List.Forall₂ R.Words) ((Text.lines text).map Source.codeWords)
      ((Text.lines text').map Source.codeWords)) :
    ResultRel R.Errors R.Programs (GridBots.assemble text) (GridBots.assemble text') := by
  have hempty : R.Readings Source.empty Source.empty := ⟨.nil, hzero⟩
  exact (hempty.foldlM hw).bind fun s s' h => assemble (sources_of_forall₂ h.tokens) h.line

end Resemblance

/-! ## Ordinary names -/

/-- A name is ordinary if it is one word of a text, and means nothing to the assembler unless
    it is defined. -/
structure IsOrdinary (text : String) : Prop where
  ne_empty : text ≠ ""
  forall_mem : ∀ c ∈ text.toList, Source.isSeparator c = false ∧ c ≠ Source.commentMarker ∧
    c ≠ Token.reservedDelimiter
  head?_ne : text.toList.head? ≠ some Token.immediateMarker
  ne_blockOpen : text ≠ Token.blockOpen
  ne_blockClose : text ≠ Token.blockClose
  parse?_eq : Numeral.parse? text = none
  isReserved_eq : SymbolTable.isReserved text = false

theorem isOrdinary_iff {text : String} :
    IsOrdinary text ↔ text ≠ "" ∧
      (∀ c ∈ text.toList, Source.isSeparator c = false ∧ c ≠ Source.commentMarker ∧
        c ≠ Token.reservedDelimiter) ∧
      text.toList.head? ≠ some Token.immediateMarker ∧ text ≠ Token.blockOpen ∧
      text ≠ Token.blockClose ∧ Numeral.parse? text = none ∧
      SymbolTable.isReserved text = false :=
  ⟨fun ⟨h₁, h₂, h₃, h₄, h₅, h₆, h₇⟩ => ⟨h₁, h₂, h₃, h₄, h₅, h₆, h₇⟩,
    fun ⟨h₁, h₂, h₃, h₄, h₅, h₆, h₇⟩ => ⟨h₁, h₂, h₃, h₄, h₅, h₆, h₇⟩⟩

instance (text : String) : Decidable (IsOrdinary text) :=
  -- Otherwise, all characters there are might be looked at.
  have := List.decidableBAll (fun c => Source.isSeparator c = false ∧ c ≠ Source.commentMarker ∧
    c ≠ Token.reservedDelimiter) text.toList
  decidable_of_iff _ isOrdinary_iff.symm

/-- The ordinary names. -/
abbrev OrdinaryName := { text : String // IsOrdinary text }

variable (r : OrdinaryName ↪ OrdinaryName)

/-- A name with another one for it, if it is ordinary. -/
def renameName (text : String) : String :=
  if h : IsOrdinary text then r ⟨text, h⟩ else text

/-- A word with another name for the one that it is, or that it is without the mark of an
    immediate operand. -/
def renameWord (word : String) : String :=
  if word.toList.head? = some Token.immediateMarker then
    String.ofList (Token.immediateMarker :: (renameName r (String.ofList word.toList.tail)).toList)
  else renameName r word

/-- A text with other names for the ordinary ones. -/
def renameText (text : String) : String :=
  Source.replaceText (renameWord r) text

section Names

variable {r} {text word : String}

/-- A name that is ordinary gets another one that is, and all others stay as they are. -/
theorem renameName_cases (r : OrdinaryName ↪ OrdinaryName) (text : String) :
    IsOrdinary text ∧ IsOrdinary (renameName r text) ∨
      ¬IsOrdinary text ∧ renameName r text = text := by
  rw [renameName]
  split
  · next h => exact .inl ⟨h, (r ⟨text, h⟩).2⟩
  · next h => exact .inr ⟨h, rfl⟩

theorem renameName_injective (r : OrdinaryName ↪ OrdinaryName) :
    Function.Injective (renameName r) := by
  intro a b hab
  rcases renameName_cases r a with ⟨ha, ha'⟩ | ⟨ha, ha'⟩ <;>
    rcases renameName_cases r b with ⟨hb, hb'⟩ | ⟨hb, hb'⟩
  · rw [renameName, renameName, dif_pos ha, dif_pos hb, Subtype.val_inj] at hab
    exact congrArg Subtype.val (r.injective hab)
  · -- A name that is ordinary is none that is not, before and after.
    rw [hab, hb'] at ha'
    exact absurd ha' hb
  · rw [← hab, ha'] at hb'
    exact absurd hb' ha
  · rwa [ha', hb'] at hab

theorem IsOrdinary.builtin?_eq (h : IsOrdinary text) : SymbolTable.builtin? text = none :=
  Resemblance.builtin?_eq_none_of_isReserved h.isReserved_eq

theorem IsOrdinary.isAliasText_eq (h : IsOrdinary text) : Token.isAliasText text = false :=
  (Bool.or_eq_false_iff.1 h.isReserved_eq).1

theorem IsOrdinary.ofMnemonic?_eq (h : IsOrdinary text) : Opcode.ofMnemonic? text = none := by
  cases ho : Opcode.ofMnemonic? text with
  | none => rfl
  | some op =>
    have hreserved := SymbolTable.isReserved_of_ofMnemonic? ho
    rw [h.isReserved_eq] at hreserved
    cases hreserved

end Names

/-- What ordinary names have in common, and is said of a name by its text, is so of a name
    exactly if it is so of the other one for it. -/
theorem renameName_congr {α : Type} {g : String → α} {a : α}
    (hg : ∀ text, IsOrdinary text → g text = a) (text : String) :
    g text = g (renameName r text) := by
  rcases renameName_cases r text with ⟨h, h'⟩ | ⟨_, h⟩
  · rw [hg _ h, hg _ h']
  · rw [h]

/-- Names and the other ones for them, on the same lines. -/
def Resemblance.renaming : Resemblance where
  name a b := renameName r a = b
  line m n := m = n
  parse?_eq := by
    rintro a _ rfl
    exact renameName_congr r (fun _ h => h.parse?_eq) a
  ofMnemonic?_eq := by
    rintro a _ rfl
    exact renameName_congr r (fun _ h => h.ofMnemonic?_eq) a
  builtin?_eq := by
    rintro a _ rfl
    exact renameName_congr r (fun _ h => h.builtin?_eq) a
  isAliasText_eq := by
    rintro a _ rfl
    exact renameName_congr r (fun _ h => h.isAliasText_eq) a
  blockOpen_iff := by
    rintro a _ rfl
    exact iff_of_eq (renameName_congr r (fun _ h => eq_false h.ne_blockOpen) a)
  blockClose_iff := by
    rintro a _ rfl
    exact iff_of_eq (renameName_congr r (fun _ h => eq_false h.ne_blockClose) a)
  eq_iff := by
    rintro a _ a' _ rfl rfl _ _
    exact (renameName_injective r).eq_iff.symm
  lineAfter h := congrArg _ h

/-! ## Renamed texts -/

theorem head?_renameName_ne {word : String}
    (h : ¬word.toList.head? = some Token.immediateMarker) :
    ¬(renameName r word).toList.head? = some Token.immediateMarker := by
  rcases renameName_cases r word with ⟨_, h'⟩ | ⟨_, h'⟩
  · exact h'.head?_ne
  · rwa [h']

theorem keepsWords_renameWord : Source.KeepsWords (renameWord r) where
  ne_empty := by
    intro word hword
    rw [renameWord]
    split
    · exact fun h => nomatch String.ofList_inj.1 h
    · rcases renameName_cases r word with ⟨_, h⟩ | ⟨_, h⟩
      · exact h.ne_empty
      · rwa [h]
  mem_or := by
    have hname : ∀ {text c}, c ∈ (renameName r text).toList →
        c ∈ text.toList ∨ Source.isSeparator c = false ∧ c ≠ Source.commentMarker := by
      intro text c hc
      rcases renameName_cases r text with ⟨_, h⟩ | ⟨_, h⟩
      · obtain ⟨hseparator, hmarker, _⟩ := h.forall_mem c hc
        exact .inr ⟨hseparator, hmarker⟩
      · exact .inl (h ▸ hc)
    intro word c hc
    rw [renameWord] at hc
    split at hc
    · next hhead =>
      rw [String.toList_ofList] at hc
      rcases List.mem_cons.1 hc with rfl | hc
      · exact .inl (List.mem_of_mem_head? hhead)
      · refine (hname hc).imp_left fun hmem => List.mem_of_mem_tail ?_
        rwa [String.toList_ofList] at hmem
    · exact hname hc

/-- The marks of words stay, and what they are as operands is replaced. -/
theorem tokens_renameWord (word : String) (line : Nat) :
    (Resemblance.renaming r).Tokens ⟨word, line⟩ ⟨renameWord r word, line⟩ := by
  by_cases hi : word.toList.head? = some Token.immediateMarker
  · have hmarked : renameWord r word = String.ofList (Token.immediateMarker ::
        (renameName r (String.ofList word.toList.tail)).toList) := if_pos hi
    have hi' : (renameWord r word).toList.head? = some Token.immediateMarker := by
      rw [hmarked, String.toList_ofList, List.head?_cons]
    refine ⟨rfl, (decide_eq_true hi).trans (decide_eq_true hi').symm, ?_⟩
    rw [Token.operandText, Token.operandText, Token.isImmediate, Token.isImmediate,
      if_pos (decide_eq_true hi), if_pos (decide_eq_true hi')]
    change renameName r (String.ofList word.toList.tail) = _
    rw [hmarked, String.toList_ofList, List.tail_cons, String.ofList_toList]
  · have hunmarked : renameWord r word = renameName r word := if_neg hi
    have hi' : ¬(renameWord r word).toList.head? = some Token.immediateMarker := by
      rw [hunmarked]
      exact head?_renameName_ne r hi
    refine ⟨rfl, (decide_eq_false hi).trans (decide_eq_false hi').symm, ?_⟩
    rw [Token.operandText, Token.operandText, Token.isImmediate, Token.isImmediate,
      if_neg (Bool.eq_false_iff.1 (decide_eq_false hi)),
      if_neg (Bool.eq_false_iff.1 (decide_eq_false hi'))]
    exact hunmarked.symm

theorem reservedDelimiter_mem_renameWord (word : String) :
    Token.reservedDelimiter ∈ word.toList ↔
      Token.reservedDelimiter ∈ (renameWord r word).toList := by
  have hname : ∀ text, (Token.reservedDelimiter ∈ text.toList) =
      (Token.reservedDelimiter ∈ (renameName r text).toList) :=
    renameName_congr r fun text h => eq_false fun hmem => (h.forall_mem _ hmem).2.2 rfl
  rw [renameWord]
  split
  · next hhead =>
    obtain ⟨name, hword⟩ := List.head?_eq_some_iff.1 hhead
    rw [hword, List.tail_cons, String.toList_ofList, List.mem_cons, List.mem_cons, ← hname,
      String.toList_ofList]
  · exact iff_of_eq (hname word)

theorem words_renameWord (word : String) :
    (Resemblance.renaming r).Words word (renameWord r word) where
  tokens := by
    rintro line _ rfl
    exact tokens_renameWord r word line
  reservedDelimiter_mem_iff := reservedDelimiter_mem_renameWord r word

/-- If nothing but names is replaced, the results are the same. -/
theorem eq_of_resultRel {x y : Except AssemblyError Program}
    (h : ResultRel (Resemblance.renaming r).Errors (Resemblance.renaming r).Programs x y) :
    x = y := by
  cases h with
  | @ok p p' hp =>
    have hcell : ∀ c c', (Resemblance.renaming r).Cells c c' → c = c' := by
      rintro ⟨w, line⟩ ⟨w', line'⟩ ⟨hword, hline⟩
      exact congrArg₂ Cell.mk hword hline
    obtain ⟨cells, count⟩ := p
    obtain ⟨cells', count'⟩ := p'
    have hcells : cells = cells' := List.forall₂_eq_eq_eq ▸ hp.cells.imp hcell
    exact congrArg Except.ok (congrArg₂ Program.mk hcells hp.variableCount_eq)
  | @error e e' he =>
    obtain ⟨fault, line⟩ := e
    obtain ⟨fault', line'⟩ := e'
    exact congrArg Except.error (congrArg₂ AssemblyError.mk he.fault_eq he.line)

/-- Ordinary names may be replaced by others without any difference, as long as different ones
    are replaced by different ones. -/
theorem assembled_renamed (text : String) :
    ((Text.lines (renameText r text)).map Source.codeWords =
      (Text.lines text).map fun line => (Source.codeWords line).map (renameWord r)) ∧
    assemble (renameText r text) = assemble text := by
  have hwords := Source.codeWords_replaceText (keepsWords_renameWord r) text
  refine ⟨hwords, ?_⟩
  have hresemble : List.Forall₂ (List.Forall₂ (Resemblance.renaming r).Words)
      ((Text.lines text).map Source.codeWords)
      ((Text.lines (renameText r text)).map Source.codeWords) := by
    rw [renameText, hwords, List.forall₂_map_left_iff, List.forall₂_map_right_iff]
    refine List.forall₂_same.2 fun line _ => ?_
    rw [List.forall₂_map_right_iff]
    exact List.forall₂_same.2 fun word _ => words_renameWord r word
  exact (eq_of_resultRel r (Resemblance.assemble_text rfl hresemble)).symm

/-- In a comment, nothing is replaced. -/
example :
    renameText (Equiv.swap ⟨"a", by decide⟩ ⟨"bot", by decide⟩).toEmbedding
      "ALIAS a -1\r\nPUSH #a\tbot a; a" = "ALIAS bot -1\r\nPUSH #bot\ta bot; a" := by
  decide +kernel

end GridBots
