import GridBots.Assembly.Source
import GridBots.Proofs.Symbols

/-!
# Reading a text

A text is read line by line, but what comes of it depends on the words of all lines, one
after the other (`Source.textWords`). The first bad word among them is the fault of the text
(`Source.wordsFault?`, `fault_of_ofText`), wherever lines end. If there is none, all words
become tokens (`Source.scan`, `ofText_eq_ok_iff`). That is so if no word has the reserved
delimiter in it and there are not too many (`wordsFault?_eq_none_iff`).

The words themselves are found without regard to lines, except that a comment ends with its
line (`textWords_eq`).
-/

namespace GridBots.Text

/-- The longest parts of characters that have none of the given ones in them. -/
def wordsBetween (isGap : Char → Bool) (cs : List Char) : List String :=
  ((cs.splitOnP isGap).filter fun word => !word.isEmpty).map String.ofList

variable {isGap : Char → Bool} {c : Char} {cs : List Char}

theorem wordsBetween_append_cons (hc : isGap c = true) (pre post : List Char) :
    wordsBetween isGap (pre ++ c :: post) = wordsBetween isGap pre ++ wordsBetween isGap post := by
  rw [wordsBetween, List.splitOnP_append_cons pre post hc, List.filter_append, List.map_append,
    wordsBetween, wordsBetween]

/-- Characters are one word if there is no gap in them, unless there are none. -/
theorem wordsBetween_of_forall (h : ∀ c ∈ cs, isGap c = false) :
    wordsBetween isGap cs = if cs.isEmpty then [] else [String.ofList cs] := by
  rw [wordsBetween, List.splitOnP_eq_singleton h]
  cases cs <;> rfl

theorem words_append_cons (hc : isBlank c = true) (pre post : List Char) :
    words (pre ++ c :: post) = words pre ++ words post :=
  wordsBetween_append_cons hc pre post

theorem words_of_isBlank (h : ∀ c ∈ cs, isBlank c = false) :
    words cs = if cs.isEmpty then [] else [String.ofList cs] :=
  wordsBetween_of_forall h

end GridBots.Text

namespace GridBots.Source

/-! ## What is read -/

/-- The words of a text, without its comments. -/
def textWords (text : String) : List String :=
  (Text.lines text).flatMap codeWords

/-- The source after all words of one more line are taken in, whatever they are. -/
def scanLine (s : Source) (line : String) : Source where
  tokens := s.tokens ++ ((codeWords line).map fun word => ⟨word, lineAfter s.lineCount⟩).toArray
  lineCount := lineAfter s.lineCount

/-- The source that a text is if all of its words are taken in. -/
def scan (text : String) : Source :=
  (Text.lines text).foldl scanLine empty

/-- What is wrong with the first bad one of words, if there is one, where `count` words have
    been taken in before. -/
def wordsFault? (count : Nat) : List String → Option Fault
  | [] => none
  | word :: words =>
    if Token.reservedDelimiter ∈ word.toList then some .illegalToken
    else if tokenCap ≤ count then some .tooManyTokens
    else wordsFault? (count + 1) words

/-- The number of words before the first bad one, or of all words if there is none. -/
def taken (count : Nat) : List String → Nat
  | [] => 0
  | word :: words =>
    if Token.reservedDelimiter ∈ word.toList ∨ tokenCap ≤ count then 0
    else taken (count + 1) words + 1

theorem texts_scanLine (s : Source) (line : String) :
    (s.scanLine line).tokens.toList.map Token.text =
      s.tokens.toList.map Token.text ++ codeWords line := by
  rw [scanLine, Array.toList_append, List.map_append, List.toList_toArray, List.map_map]
  exact congrArg _ (List.map_id _)

theorem texts_foldl_scanLine (s : Source) (lines : List String) :
    (lines.foldl scanLine s).tokens.toList.map Token.text =
      s.tokens.toList.map Token.text ++ lines.flatMap codeWords := by
  induction lines generalizing s with
  | nil => exact (List.append_nil _).symm
  | cons line lines ih =>
    rw [List.foldl_cons, ih, texts_scanLine, List.flatMap_cons, List.append_assoc]

/-- The texts of the tokens are the words of the text. -/
theorem texts_scan (text : String) :
    (scan text).tokens.toList.map Token.text = textWords text :=
  texts_foldl_scanLine empty _

theorem size_tokens_scan (text : String) : (scan text).tokens.size = (textWords text).length := by
  rw [← texts_scan, List.length_map, Array.length_toList]

/-! ## Bad words -/

theorem wordsFault?_append (count : Nat) (words later : List String) :
    wordsFault? count (words ++ later) =
      (wordsFault? count words).or (wordsFault? (count + words.length) later) := by
  induction words generalizing count with
  | nil => rfl
  | cons word words ih =>
    rw [List.cons_append, wordsFault?, wordsFault?]
    split
    · rfl
    split
    · rfl
    · rw [ih, List.length_cons, Nat.add_right_comm, Nat.add_assoc]

/-- No word is bad if none has the reserved delimiter in it and there is room for all. -/
theorem wordsFault?_eq_none_iff {count : Nat} {words : List String} (hc : count ≤ tokenCap) :
    wordsFault? count words = none ↔
      (∀ word ∈ words, Token.reservedDelimiter ∉ word.toList) ∧
        count + words.length ≤ tokenCap := by
  induction words generalizing count with
  | nil => exact ⟨fun _ => ⟨fun _ h => absurd h List.not_mem_nil, hc⟩, fun _ => rfl⟩
  | cons word words ih =>
    rw [wordsFault?, List.forall_mem_cons, List.length_cons]
    by_cases hw : Token.reservedDelimiter ∈ word.toList
    · simp [hw]
    by_cases hcap : tokenCap ≤ count
    · simp only [hw, if_false, if_pos hcap]
      constructor
      · intro h
        cases h
      · intro h
        omega
    · have hc' : count + 1 ≤ tokenCap := by omega
      rw [if_neg hw, if_neg hcap, ih hc', and_assoc, Nat.add_assoc, Nat.add_comm 1]
      exact (and_iff_right hw).symm

/-! ## Reading line by line -/

/-- The words before the first bad one are taken in. -/
theorem accept_eq (s : Source) (words : List String) :
    s.accept words =
      ({ s with tokens := s.tokens ++
          ((words.take (taken s.tokens.size words)).map fun word => ⟨word, s.lineCount⟩).toArray },
        (wordsFault? s.tokens.size words).map fun f => ⟨f, s.lineCount⟩) := by
  induction words generalizing s with
  | nil => rw [accept, List.take_nil, List.map_nil, Array.append_empty]; rfl
  | cons word words ih =>
    rw [wordsFault?, taken, accept, refusal?]
    by_cases hw : Token.reservedDelimiter ∈ word.toList
    · simp [hw]
    by_cases hcap : tokenCap ≤ s.tokens.size
    · simp [hw, hcap]
    · -- The word is taken in, and the others are taken in or refused after it.
      have hsize : (s.push word).tokens.size = s.tokens.size + 1 := Array.size_push _
      have hlater := ih (s.push word)
      rw [hsize] at hlater
      simp only [hw, hcap, if_false, or_self, List.take_succ_cons, List.map_cons]
      rw [hlater, push]
      simp

theorem taken_of_wordsFault? {count : Nat} {words : List String}
    (h : wordsFault? count words = none) : taken count words = words.length := by
  induction words generalizing count with
  | nil => rfl
  | cons word words ih =>
    rw [wordsFault?] at h
    split at h
    · cases h
    next hw =>
    split at h
    · cases h
    next hcap =>
    rw [taken, if_neg (not_or.2 ⟨hw, hcap⟩), ih h, List.length_cons]

theorem addLine?_of_wordsFault? (s : Source) (line : String) :
    (wordsFault? s.tokens.size (codeWords line) = none → s.addLine? line = .ok (s.scanLine line)) ∧
    ∀ f, wordsFault? s.tokens.size (codeWords line) = some f →
      ∃ l, s.addLine? line = .error ⟨f, l⟩ := by
  have haccept := accept_eq { s with lineCount := lineAfter s.lineCount } (codeWords line)
  dsimp only at haccept
  refine ⟨fun h => ?_, fun f h => ?_⟩
  · rw [addLine?, addLine, haccept, h, taken_of_wordsFault? h, List.take_length]
    rfl
  · rw [addLine?, addLine, haccept, h]
    exact ⟨_, rfl⟩

theorem foldlM_addLine?_of_wordsFault? (s : Source) (lines : List String) :
    (wordsFault? s.tokens.size (lines.flatMap codeWords) = none →
      lines.foldlM addLine? s = .ok (lines.foldl scanLine s)) ∧
    ∀ f, wordsFault? s.tokens.size (lines.flatMap codeWords) = some f →
      ∃ l, lines.foldlM addLine? s = .error ⟨f, l⟩ := by
  induction lines generalizing s with
  | nil => exact ⟨fun _ => rfl, fun f h => (nomatch h)⟩
  | cons line lines ih =>
    obtain ⟨hnone, hsome⟩ := addLine?_of_wordsFault? s line
    have hsize : (s.scanLine line).tokens.size = s.tokens.size + (codeWords line).length := by
      simp [scanLine]
    obtain ⟨hlater, hlater'⟩ := ih (s.scanLine line)
    rw [hsize] at hlater hlater'
    rw [List.flatMap_cons, wordsFault?_append, List.foldlM_cons, List.foldl_cons]
    cases hf : wordsFault? s.tokens.size (codeWords line) with
    | none =>
      rw [hnone hf]
      exact ⟨hlater, hlater'⟩
    | some f =>
      obtain ⟨l, hl⟩ := hsome f hf
      rw [hl]
      refine ⟨fun h => (nomatch h), fun f' h => ?_⟩
      cases h
      exact ⟨l, rfl⟩

/-- A text is read if none of its words is bad, and then all of them are taken in. -/
theorem ofText_eq_ok_iff {text : String} {s : Source} :
    ofText text = .ok s ↔ wordsFault? 0 (textWords text) = none ∧ s = scan text := by
  obtain ⟨hnone, hsome⟩ := foldlM_addLine?_of_wordsFault? empty (Text.lines text)
  change (wordsFault? 0 (textWords text) = none → ofText text = .ok (scan text)) at hnone
  change (∀ f, wordsFault? 0 (textWords text) = some f →
    ∃ l, ofText text = .error ⟨f, l⟩) at hsome
  cases hf : wordsFault? 0 (textWords text) with
  | none =>
    rw [hnone hf]
    exact ⟨fun h => ⟨rfl, (Except.ok.inj h).symm⟩, fun h => congrArg _ h.2.symm⟩
  | some f =>
    obtain ⟨l, hl⟩ := hsome f hf
    rw [hl]
    exact ⟨fun h => (nomatch h), fun h => (nomatch h.1)⟩

/-- If a text is not read, the reason is its first bad word. -/
theorem fault_of_ofText {text : String} {e : AssemblyError} (h : ofText text = .error e) :
    wordsFault? 0 (textWords text) = some e.fault := by
  obtain ⟨hnone, hsome⟩ := foldlM_addLine?_of_wordsFault? empty (Text.lines text)
  cases hf : wordsFault? 0 (textWords text) with
  | none =>
    rw [ofText, hnone hf] at h
    cases h
  | some f =>
    obtain ⟨l, hl⟩ := hsome f hf
    rw [ofText, hl] at h
    cases h
    rfl

/-- The tokens of a source are the words of its text. -/
theorem texts_of_ofText {text : String} {s : Source} (h : ofText text = .ok s) :
    s.tokens.toList.map Token.text = textWords text := by
  rw [(ofText_eq_ok_iff.1 h).2, texts_scan]

/-! ## Lines

The words of a text are those of its lines, but lines are not needed to find them: the end of
a line only ends a comment and otherwise stands between words as a blank does. -/

/-- Whether a character stands between words: a blank, or the end of a line. -/
def isSeparator (c : Char) : Bool :=
  Text.isBlank c || c == '\n'

/-- The characters that are in no comment, where it is given whether the first ones are. The
    end of a line is in none. -/
def withoutComments : (inComment : Bool) → List Char → List Char
  | _, [] => []
  | true, c :: cs => if c = '\n' then c :: withoutComments false cs else withoutComments true cs
  | false, c :: cs =>
    if c = commentMarker then withoutComments true cs else c :: withoutComments false cs

/-- The words of characters, which are the longest parts without separators. -/
def separatedWords (cs : List Char) : List String :=
  ((cs.splitOnP isSeparator).filter fun word => !word.isEmpty).map String.ofList

section Lines

variable {cs line : List Char}

theorem separatedWords_append_cons {c : Char} (hc : isSeparator c = true) (pre post : List Char) :
    separatedWords (pre ++ c :: post) = separatedWords pre ++ separatedWords post :=
  Text.wordsBetween_append_cons hc pre post

theorem separatedWords_of_isSeparator (h : ∀ c ∈ cs, isSeparator c = false) :
    separatedWords cs = if cs.isEmpty then [] else [String.ofList cs] :=
  Text.wordsBetween_of_forall h

/-- Within a line, words are separated by blanks. -/
theorem separatedWords_eq_words (h : '\n' ∉ cs) : separatedWords cs = Text.words cs := by
  have hsplit : cs.splitOnP isSeparator = cs.splitOnP Text.isBlank := by
    induction cs with
    | nil => rfl
    | cons c cs ih =>
      obtain ⟨hc, hcs⟩ := not_or.1 (mt List.mem_cons.2 h)
      have hsame : isSeparator c = Text.isBlank c := by
        rw [isSeparator, beq_false_of_ne (Ne.symm hc), Bool.or_false]
      rw [List.splitOnP_cons_eq_if_modifyHead, List.splitOnP_cons_eq_if_modifyHead, hsame, ih hcs]
  rw [separatedWords, hsplit, Text.words]

/-- The carriage return that a line may end with does not change its words. -/
theorem words_takeWhile_dropReturn (line : List Char) (p : Char → Bool) :
    Text.words ((Text.dropReturn line).takeWhile p) = Text.words (line.takeWhile p) := by
  have hreturn : ∀ cs, Text.words (cs ++ ['\r']) = Text.words cs := by
    intro cs
    rw [Text.words, List.splitOnP_append_cons cs [] (by decide), List.filter_append, Text.words]
    exact congrArg _ (List.append_nil _)
  rw [Text.dropReturn]
  split
  · next h =>
    obtain ⟨cs, rfl⟩ := List.getLast?_eq_some_iff.1 h
    rw [List.dropLast_concat, List.takeWhile_append]
    split
    · next hall =>
      rw [List.takeWhile_cons, (List.takeWhile_prefix p).eq_of_length hall]
      split
      · exact (hreturn cs).symm
      · rw [List.append_nil]
    · rfl
  · rfl

/-- Within a line, a comment is what comes after the first character that begins one. -/
theorem withoutComments_eq_takeWhile (h : '\n' ∉ line) :
    withoutComments false line = line.takeWhile (· ≠ commentMarker) := by
  have hcomment : ∀ {cs : List Char}, '\n' ∉ cs → withoutComments true cs = [] := by
    intro cs hcs
    induction cs with
    | nil => rfl
    | cons c cs ih =>
      obtain ⟨hc, hcs⟩ := not_or.1 (mt List.mem_cons.2 hcs)
      rw [withoutComments, if_neg (Ne.symm hc), ih hcs]
  induction line with
  | nil => rfl
  | cons c line ih =>
    obtain ⟨_, hline⟩ := not_or.1 (mt List.mem_cons.2 h)
    rw [withoutComments, List.takeWhile_cons]
    by_cases hc : c = commentMarker
    · simp [hc, hcomment hline]
    · simp [hc, ih hline]

theorem withoutComments_append_cons (h : '\n' ∉ line) (post : List Char) :
    withoutComments false (line ++ '\n' :: post) =
      withoutComments false line ++ '\n' :: withoutComments false post := by
  have hcomment : ∀ {cs : List Char}, '\n' ∉ cs →
      withoutComments true (cs ++ '\n' :: post) =
        withoutComments true cs ++ '\n' :: withoutComments false post := by
    intro cs hcs
    induction cs with
    | nil => rfl
    | cons c cs ih =>
      obtain ⟨hc, hcs⟩ := not_or.1 (mt List.mem_cons.2 hcs)
      rw [List.cons_append, withoutComments, withoutComments, if_neg (Ne.symm hc),
        if_neg (Ne.symm hc), ih hcs]
  induction line with
  | nil => rfl
  | cons c line ih =>
    obtain ⟨_, hline⟩ := not_or.1 (mt List.mem_cons.2 h)
    rw [List.cons_append, withoutComments, withoutComments]
    split
    · exact hcomment hline
    · rw [ih hline, List.cons_append]

theorem codeWords_ofList (h : '\n' ∉ line) :
    codeWords (String.ofList line) = separatedWords (withoutComments false line) := by
  rw [withoutComments_eq_takeWhile h, codeWords, String.toList_ofList]
  exact (separatedWords_eq_words fun hmem => h (List.takeWhile_subset _ hmem)).symm

theorem flatMap_endedLines (cs : List Char) :
    (Text.endedLines (cs.splitOnP (· == '\n'))).flatMap (fun line => codeWords (String.ofList line)) =
      separatedWords (withoutComments false cs) := by
  induction hn : cs.length using Nat.strongRecOn generalizing cs with
  | ind n ih =>
  by_cases hmem : '\n' ∈ cs
  · -- The first line, and those after it.
    obtain ⟨line, post, rfl, hline⟩ := List.eq_append_cons_of_mem hmem
    have hrest := ih post.length (by rw [← hn, List.length_append, List.length_cons]; omega) post rfl
    have hne : ∀ c ∈ line, (c == '\n') = false := by
      rintro c hc
      exact beq_false_of_ne fun heq => hline (heq ▸ hc)
    rw [List.splitOnP_append_cons_of_forall_mem hne '\n' rfl, withoutComments_append_cons hline,
      separatedWords_append_cons (by decide), ← codeWords_ofList hline, ← hrest]
    obtain ⟨next, rest, hnext⟩ :=
      List.exists_cons_of_ne_nil (List.splitOnP_ne_nil (fun c => c == '\n') post)
    rw [hnext, Text.endedLines, List.flatMap_cons]
    refine congrArg (· ++ _) ?_
    rw [codeWords, codeWords, String.toList_ofList, String.toList_ofList,
      words_takeWhile_dropReturn]
  · -- The last line, which has no words if it is empty.
    have hne : ∀ c ∈ cs, (c == '\n') = false := by
      rintro c hc
      exact beq_false_of_ne fun heq => hmem (heq ▸ hc)
    rw [List.splitOnP_eq_singleton hne, Text.endedLines, ← codeWords_ofList hmem]
    cases cs with
    | nil => rfl
    | cons c cs => exact List.append_nil _

/-- The words of a text are found without regard to its lines, once its comments are left out. -/
theorem textWords_eq (text : String) :
    textWords text = separatedWords (withoutComments false text.toList) := by
  rw [textWords, Text.lines, List.flatMap_map]
  exact flatMap_endedLines text.toList

end Lines

end GridBots.Source
