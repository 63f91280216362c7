import GridBots.Proofs.Reading
import Mathlib.Data.List.Induction
import Mathlib.Data.List.TakeWhile

/-!
# Lines and their tokens

What is read of a line are its *runs*, which are the longest parts of it without blanks
(`Text.IsRun`), up to the semicolon that begins its comment. They are the words of the line, one
after the other (`Text.exists_runs`).

Lines are read one after the other, and a line that is refused does not keep those after it from
being read (`Source.ofLines`). What is left out of it is the first bad word and all words that come
after that (`Source.Reads`). All others become tokens, with the number of their line
(`Source.tokens_of_lines`).
-/

namespace GridBots

/-! ## Runs -/

namespace Text

/-- The characters from a place on, and before another, are a run: none of them is a blank, and
    there is none to be added on either side. -/
structure IsRun (cs : List Char) (first last : Nat) : Prop where
  lt : first < last
  le : last ≤ cs.length
  within : ∀ i c, first ≤ i → i < last → cs[i]? = some c → isBlank c = false
  before : ∀ i c, i + 1 = first → cs[i]? = some c → isBlank c = true
  after : ∀ c, cs[last]? = some c → isBlank c = true

/-- All runs of a line, in their order. -/
structure Runs (cs : List Char) (runs : List (Nat × Nat)) : Prop where
  mem_iff : ∀ r, r ∈ runs ↔ IsRun cs r.1 r.2
  sorted : runs.Pairwise fun r r' => r.1 < r'.1

/-- The characters from a place on, and before another. -/
def part (cs : List Char) (r : Nat × Nat) : String :=
  String.ofList ((cs.take r.2).drop r.1)

variable {cs pre post : List Char} {c : Char} {first last : Nat} {runs runs' : List (Nat × Nat)}

/-- What is in a run is some of the line, and is no blank. -/
theorem IsRun.mem_part (h : IsRun cs first last) (hc : c ∈ (part cs (first, last)).toList) :
    c ∈ cs ∧ isBlank c = false := by
  rw [part, String.toList_ofList, List.mem_iff_getElem?] at hc
  obtain ⟨i, hi⟩ := hc
  rw [List.getElem?_drop, List.getElem?_take] at hi
  split at hi
  · next hlt => exact ⟨List.mem_of_getElem? hi, h.within _ c (Nat.le_add_right _ _) hlt hi⟩
  · cases hi

theorem IsRun.part_ne_empty (h : IsRun cs first last) : part cs (first, last) ≠ "" := by
  have hpos : 0 < (part cs (first, last)).toList.length := by
    rw [part, String.toList_ofList, List.length_drop, List.length_take, Nat.min_eq_left h.le]
    exact Nat.sub_pos_of_lt h.lt
  intro hempty
  rw [hempty] at hpos
  exact Nat.lt_irrefl 0 hpos

/-- Before a blank, the runs of the line are those of what is before it. -/
theorem isRun_before_iff (hc : isBlank c = true) (hlast : last ≤ pre.length) :
    IsRun (pre ++ c :: post) first last ↔ IsRun pre first last := by
  have hpre : ∀ {i d}, pre[i]? = some d → (pre ++ c :: post)[i]? = some d := fun hd =>
    (List.getElem?_append_left (List.getElem?_eq_some_iff.1 hd).1).trans hd
  have hpre' : ∀ {i d}, i < pre.length → (pre ++ c :: post)[i]? = some d → pre[i]? = some d :=
    fun hi hd => (List.getElem?_append_left hi).symm.trans hd
  constructor
  · rintro ⟨hlt, _, hwithin, hbefore, hafter⟩
    exact ⟨hlt, hlast, fun i d hi hi' hd => hwithin i d hi hi' (hpre hd),
      fun i d hi hd => hbefore i d hi (hpre hd), fun d hd => hafter d (hpre hd)⟩
  · rintro ⟨hlt, _, hwithin, hbefore, hafter⟩
    refine ⟨hlt, ?_, fun i d hi hi' hd => hwithin i d hi hi' (hpre' (by omega) hd),
      fun i d hi hd => hbefore i d hi (hpre' (by omega) hd), fun d hd => ?_⟩
    · rw [List.length_append]
      exact Nat.le_trans hlast (Nat.le_add_right _ _)
    -- The run may end at the blank itself.
    rcases Nat.lt_or_eq_of_le hlast with hlt | rfl
    · exact hafter d (hpre' hlt hd)
    · rw [List.getElem?_append_right (Nat.le_refl _), Nat.sub_self] at hd
      cases hd
      exact hc

/-- After a blank, the runs of the line are those of what is after it. -/
theorem isRun_after_iff (hc : isBlank c = true) :
    IsRun (pre ++ c :: post) (pre.length + 1 + first) (pre.length + 1 + last) ↔
      IsRun post first last := by
  have hpost : ∀ i, (pre ++ c :: post)[pre.length + 1 + i]? = post[i]? := by
    intro i
    have hsub : pre.length + 1 + i - pre.length = i + 1 := by omega
    rw [List.getElem?_append_right (by omega), hsub, List.getElem?_cons_succ]
  have hlength : (pre ++ c :: post).length = pre.length + 1 + post.length := by
    rw [List.length_append, List.length_cons]
    omega
  constructor
  · rintro ⟨hlt, hle, hwithin, hbefore, hafter⟩
    refine ⟨by omega, by omega, fun i d hi hi' hd => ?_, fun i d hi hd => ?_, fun d hd => ?_⟩
    · exact hwithin _ d (by omega) (by omega) ((hpost i).trans hd)
    · exact hbefore _ d (by omega) ((hpost i).trans hd)
    · exact hafter d ((hpost last).trans hd)
  · rintro ⟨hlt, hle, hwithin, hbefore, hafter⟩
    refine ⟨by omega, by omega, fun i d hi hi' hd => ?_, fun i d hi hd => ?_, fun d hd => ?_⟩
    · obtain ⟨j, rfl⟩ := Nat.exists_eq_add_of_le (show pre.length + 1 ≤ i by omega)
      exact hwithin j d (by omega) (by omega) ((hpost j).symm.trans hd)
    · -- The run may begin right after the blank.
      rcases Nat.eq_or_lt_of_le (show pre.length ≤ i by omega) with rfl | hlt
      · rw [List.getElem?_append_right (Nat.le_refl _), Nat.sub_self] at hd
        cases hd
        exact hc
      · obtain ⟨j, rfl⟩ := Nat.exists_eq_add_of_le (show pre.length + 1 ≤ i from hlt)
        exact hbefore j d (by omega) ((hpost j).symm.trans hd)
    · exact hafter d ((hpost last).symm.trans hd)

/-- No run goes over a blank. -/
theorem IsRun.before_or_after (h : IsRun (pre ++ c :: post) first last) (hc : isBlank c = true) :
    last ≤ pre.length ∨ pre.length + 1 ≤ first := by
  by_contra hno
  have hat : (pre ++ c :: post)[pre.length]? = some c := by
    rw [List.getElem?_append_right (Nat.le_refl _), Nat.sub_self, List.getElem?_cons_zero]
  rw [h.within pre.length c (by omega) (by omega) hat] at hc
  cases hc

/-- The runs on either side of a blank are those of the line. -/
theorem Runs.append_cons (hpre : Runs pre runs) (hpost : Runs post runs')
    (hc : isBlank c = true) :
    Runs (pre ++ c :: post)
      (runs ++ runs'.map fun r => (pre.length + 1 + r.1, pre.length + 1 + r.2)) := by
  refine ⟨fun ⟨first, last⟩ => ⟨fun hmem => ?_, fun h => ?_⟩, List.pairwise_append.2 ⟨hpre.sorted,
    List.pairwise_map.2 (hpost.sorted.imp fun h => by omega), fun r hr r' hr' => ?_⟩⟩
  · rcases List.mem_append.1 hmem with hmem | hmem
    · have hrun := (hpre.mem_iff _).1 hmem
      exact (isRun_before_iff hc hrun.le).2 hrun
    · obtain ⟨r, hr, heq⟩ := List.mem_map.1 hmem
      cases heq
      exact (isRun_after_iff hc).2 ((hpost.mem_iff _).1 hr)
  · rcases h.before_or_after hc with hside | hside
    · exact List.mem_append_left _ ((hpre.mem_iff _).2 ((isRun_before_iff hc hside).1 h))
    · obtain ⟨first', rfl⟩ := Nat.exists_eq_add_of_le hside
      obtain ⟨last', rfl⟩ := Nat.exists_eq_add_of_le (Nat.le_trans hside (Nat.le_of_lt h.lt))
      exact List.mem_append_right _ (List.mem_map.2
        ⟨(first', last'), (hpost.mem_iff _).2 ((isRun_after_iff hc).1 h), rfl⟩)
  · obtain ⟨r', _, rfl⟩ := List.mem_map.1 hr'
    have hrun := (hpre.mem_iff r).1 hr
    have := hrun.lt
    have := hrun.le
    change r.1 < pre.length + 1 + r'.1
    omega

theorem part_before (r : Nat × Nat) (h : r.2 ≤ pre.length) :
    part (pre ++ c :: post) r = part pre r := by
  rw [part, part, List.take_append_of_le_length h]

theorem part_after (r : Nat × Nat) :
    part (pre ++ c :: post) (pre.length + 1 + r.1, pre.length + 1 + r.2) = part post r := by
  have htake : (pre ++ c :: post).take (pre.length + 1 + r.2) = (pre ++ [c]) ++ post.take r.2 := by
    rw [List.append_cons, List.take_append, List.take_of_length_le (by simp)]
    simp
  rw [part, part, htake, List.drop_append, List.drop_eq_nil_of_le (by simp)]
  simp

/-- What has no blank in it is one run, unless it is empty. -/
theorem runs_of_isBlank (h : ∀ c ∈ cs, isBlank c = false) :
    Runs cs (if cs.isEmpty then [] else [(0, cs.length)]) := by
  have hall : ∀ {first last}, IsRun cs first last → first = 0 ∧ last = cs.length := by
    rintro first last ⟨hlt, hle, -, hbefore, hafter⟩
    constructor
    · -- Before the first character there is none, as there would have to be a blank.
      by_contra hfirst
      obtain ⟨i, rfl⟩ := Nat.exists_eq_succ_of_ne_zero hfirst
      have hget := List.getElem?_eq_getElem (l := cs) (show i < cs.length by omega)
      have hblank := hbefore i _ rfl hget
      rw [h _ (List.getElem_mem _)] at hblank
      cases hblank
    · by_contra hlast
      have hget := List.getElem?_eq_getElem (l := cs) (show last < cs.length by omega)
      have hblank := hafter _ hget
      rw [h _ (List.getElem_mem _)] at hblank
      cases hblank
  cases cs with
  | nil =>
    refine ⟨fun r => ⟨fun hmem => (nomatch hmem), fun hrun => ?_⟩, List.Pairwise.nil⟩
    exact absurd (Nat.lt_of_lt_of_le hrun.lt hrun.le) (Nat.not_lt_zero _)
  | cons c cs =>
    refine ⟨fun ⟨first, last⟩ => ⟨fun hmem => ?_, fun hrun => ?_⟩, List.pairwise_singleton _ _⟩
    · cases List.mem_singleton.1 hmem
      exact ⟨Nat.succ_pos _, (Nat.le_refl _), fun i d _ _ hd => h d (List.mem_of_getElem? hd),
        fun i d hi => (nomatch hi), fun d hd => by
          rw [List.getElem?_eq_none (Nat.le_refl _)] at hd
          cases hd⟩
    · obtain ⟨rfl, rfl⟩ := hall hrun
      exact List.mem_singleton.2 rfl

/-- The words of a line are its runs. -/
theorem exists_runs (cs : List Char) :
    ∃ runs, Runs cs runs ∧ words cs = runs.map (part cs) := by
  induction hn : cs.length using Nat.strongRecOn generalizing cs with
  | ind n ih =>
  by_cases hblank : ∃ c ∈ cs, isBlank c = true
  · -- The runs are those on either side of a blank.
    obtain ⟨c, hmem, hc⟩ := hblank
    obtain ⟨pre, post, rfl⟩ := List.append_of_mem hmem
    rw [List.length_append, List.length_cons] at hn
    obtain ⟨runs, hruns, hwords⟩ := ih pre.length (by omega) pre rfl
    obtain ⟨runs', hruns', hwords'⟩ := ih post.length (by omega) post rfl
    refine ⟨_, hruns.append_cons hruns' hc, ?_⟩
    rw [words_append_cons hc, hwords, hwords', List.map_append, List.map_map]
    congr 1
    · exact List.map_congr_left fun r hr => (part_before r ((hruns.mem_iff r).1 hr).le).symm
    · exact List.map_congr_left fun r _ => (part_after r).symm
  · have hall : ∀ c ∈ cs, isBlank c = false := fun c hmem =>
      Bool.eq_false_iff.2 fun hc => hblank ⟨c, hmem, hc⟩
    refine ⟨_, runs_of_isBlank hall, ?_⟩
    rw [words_of_isBlank hall]
    split
    · rfl
    · rw [List.map_singleton, part, List.take_length, List.drop_zero]

end Text

/-! ## Tokens of lines -/

namespace Token

/-- The tokens that the words of lines are, where it is given what the number of the first line
    is. -/
def numbered (first : Nat) (lines : List (List String)) : List Token :=
  (lines.zipIdx first).flatMap fun (words, number) => words.map fun word => ⟨word, number⟩

variable {first : Nat} {t : Token}

theorem numbered_concat (lines : List (List String)) (words : List String) :
    numbered first (lines ++ [words]) =
      numbered first lines ++ words.map fun word => ⟨word, first + lines.length⟩ := by
  rw [numbered, List.zipIdx_append, List.flatMap_append, numbered]
  exact congrArg _ (List.append_nil _)

theorem mem_numbered_iff {lines : List (List String)} :
    t ∈ numbered first lines ↔
      ∃ k words, lines[k]? = some words ∧ t.text ∈ words ∧ t.line = first + k := by
  rw [numbered, List.mem_flatMap]
  constructor
  · rintro ⟨⟨words, number⟩, hmem, ht⟩
    obtain ⟨word, hword, rfl⟩ := List.mem_map.1 ht
    obtain ⟨hle, hget⟩ := List.mk_mem_zipIdx_iff_le_and_getElem?_sub.1 hmem
    exact ⟨number - first, words, hget, hword, (Nat.add_sub_cancel' hle).symm⟩
  · rintro ⟨k, words, hget, hword, hline⟩
    refine ⟨(words, first + k), List.mk_mem_zipIdx_iff_le_and_getElem?_sub.2
      ⟨Nat.le_add_right _ _, by rwa [Nat.add_sub_cancel_left]⟩, List.mem_map.2 ⟨t.text, hword, ?_⟩⟩
    rw [← hline]

/-- The lines of tokens do not decrease. -/
theorem pairwise_numbered (lines : List (List String)) :
    (numbered first lines).Pairwise fun t t' => t.line ≤ t'.line := by
  induction lines using List.reverseRecOn with
  | nil => exact List.Pairwise.nil
  | append_singleton lines words ih =>
    rw [numbered_concat]
    refine List.pairwise_append.2 ⟨ih, List.pairwise_map.2
      (List.pairwise_of_forall fun _ _ => Nat.le_refl _), fun t ht t' ht' => ?_⟩
    obtain ⟨k, _, hget, _, hline⟩ := mem_numbered_iff.1 ht
    obtain ⟨_, _, rfl⟩ := List.mem_map.1 ht'
    have hk := (List.getElem?_eq_some_iff.1 hget).1
    rw [hline]
    exact Nat.add_le_add_left (Nat.le_of_lt hk) first

end Token

/-! ## Reading lines -/

namespace Source

/-- The source that lines are, where words that are refused are left out. -/
def ofLines (lines : List String) : Source :=
  lines.foldl (fun s line => (s.addLine line).1) empty

/-- Words are taken in one after the other, if `held` words have been before. -/
def Fit (held : Nat) (words : List String) : Prop :=
  ∀ i word, words[i]? = some word → '+' ∉ word.toList ∧ held + i < 4096

/-- What is kept of the words of a line, and what is wrong with the line, if `held` words have been
    taken in before. Nothing is kept from the first word on that is not taken in. -/
inductive Reads (held number : Nat) :
    (words kept : List String) → Option AssemblyError → Prop
  | all {words : List String} : Fit held words → Reads held number words words none
  | illegal {kept rest : List String} {word : String} : Fit held kept → '+' ∈ word.toList →
      Reads held number (kept ++ word :: rest) kept (some ⟨.illegalToken, number⟩)
  | tooMany {kept rest : List String} {word : String} : Fit held kept → '+' ∉ word.toList →
      4096 ≤ held + kept.length →
      Reads held number (kept ++ word :: rest) kept (some ⟨.tooManyTokens, number⟩)

variable {held number : Nat} {words kept : List String} {word : String}
  {error? : Option AssemblyError} {lines : List String}

theorem fit_nil : Fit held [] :=
  fun _ _ h => (nomatch h)

theorem fit_cons_iff :
    Fit held (word :: words) ↔ ('+' ∉ word.toList ∧ held < 4096) ∧ Fit (held + 1) words := by
  constructor
  · intro h
    refine ⟨h 0 word rfl, fun i word' hi => ?_⟩
    rw [Nat.add_right_comm]
    exact h (i + 1) word' hi
  · rintro ⟨hword, hwords⟩ (_ | i) word' hi
    · cases hi
      exact hword
    · have := hwords i word' hi
      rwa [Nat.add_right_comm] at this

theorem Fit.add_length_le (h : Fit held words) (hheld : held ≤ 4096) :
    held + words.length ≤ 4096 := by
  rcases Nat.eq_zero_or_pos words.length with hlength | hlength
  · rwa [hlength]
  · have := (h (words.length - 1) _ (List.getElem?_eq_getElem (by omega))).2
    omega

theorem Reads.fit (h : Reads held number words kept error?) : Fit held kept := by
  cases h <;> assumption

theorem Reads.subset (h : Reads held number words kept error?) : kept ⊆ words := by
  cases h with
  | all => exact List.Subset.refl _
  | illegal => exact List.subset_append_left _ _
  | tooMany => exact List.subset_append_left _ _

theorem Reads.cons (h : Reads (held + 1) number words kept error?)
    (hword : '+' ∉ word.toList ∧ held < 4096) :
    Reads held number (word :: words) (word :: kept) error? := by
  cases h with
  | all hfit => exact .all (fit_cons_iff.2 ⟨hword, hfit⟩)
  | illegal hfit hbad => exact .illegal (fit_cons_iff.2 ⟨hword, hfit⟩) hbad
  | tooMany hfit hgood hfull =>
    refine .tooMany (fit_cons_iff.2 ⟨hword, hfit⟩) hgood ?_
    rwa [List.length_cons, ← Nat.add_assoc, Nat.add_right_comm]

theorem reads_take_taken (held number : Nat) (words : List String) :
    Reads held number words (words.take (taken held words))
      ((wordsFault? held words).map fun f => ⟨f, number⟩) := by
  induction words generalizing held with
  | nil => exact .all fit_nil
  | cons word words ih =>
    rw [wordsFault?, taken]
    by_cases hbad : Token.reservedDelimiter ∈ word.toList
    · rw [if_pos hbad, if_pos (Or.inl hbad), List.take_zero]
      exact @Reads.illegal held number [] words word fit_nil hbad
    by_cases hfull : tokenCap ≤ held
    · rw [if_neg hbad, if_pos hfull, if_pos (Or.inr hfull), List.take_zero]
      exact @Reads.tooMany held number [] words word fit_nil hbad hfull
    · rw [if_neg hbad, if_neg hfull, if_neg (not_or.2 ⟨hbad, hfull⟩), List.take_succ_cons]
      exact (ih (held + 1)).cons ⟨hbad, Nat.lt_of_not_le hfull⟩

/-- One more line is read: some of its words become tokens. -/
theorem exists_reads (s : Source) (line : String) :
    ∃ kept, Reads s.tokens.size (lineAfter s.lineCount) (codeWords line) kept (s.addLine line).2 ∧
      (s.addLine line).1.tokens.toList =
        s.tokens.toList ++ kept.map (fun word => ⟨word, lineAfter s.lineCount⟩) ∧
      (s.addLine line).1.lineCount = lineAfter s.lineCount := by
  have haccept := accept_eq { s with lineCount := lineAfter s.lineCount } (codeWords line)
  rw [addLine, haccept]
  refine ⟨_, reads_take_taken _ _ _, ?_, rfl⟩
  rw [Array.toList_append, List.toList_toArray]

theorem ofLines_concat (lines : List String) (line : String) :
    ofLines (lines ++ [line]) = ((ofLines lines).addLine line).1 := by
  rw [ofLines, List.foldl_append]
  rfl

theorem lineCount_ofLines (h : lines.length < 0x100000000) :
    (ofLines lines).lineCount = lines.length := by
  induction lines using List.reverseRecOn with
  | nil => rfl
  | append_singleton lines line ih =>
    rw [List.length_append, List.length_singleton] at h
    obtain ⟨_, _, _, hcount⟩ := exists_reads (ofLines lines) line
    rw [ofLines_concat, hcount, ih (Nat.lt_of_succ_lt h), lineAfter, List.length_append,
      List.length_singleton]
    omega

theorem size_ofLines_le (lines : List String) : (ofLines lines).tokens.size ≤ 4096 := by
  induction lines using List.reverseRecOn with
  | nil => exact Nat.zero_le _
  | append_singleton lines line ih =>
    obtain ⟨kept, hreads, htokens, _⟩ := exists_reads (ofLines lines) line
    rw [ofLines_concat, ← Array.length_toList, htokens, List.length_append, List.length_map,
      Array.length_toList]
    exact hreads.fit.add_length_le ih

/-- Of each line some of the words are kept, and they are the tokens with its number. -/
theorem exists_kept (h : lines.length < 0x100000000) :
    ∃ kept : List (List String), kept.length = lines.length ∧
      (∀ k line, lines[k]? = some line → ∃ words, kept[k]? = some words ∧
        Reads (ofLines (lines.take k)).tokens.size (k + 1) (codeWords line) words
          ((ofLines (lines.take k)).addLine line).2) ∧
      (ofLines lines).tokens.toList = Token.numbered 1 kept := by
  induction lines using List.reverseRecOn with
  | nil => exact ⟨[], rfl, fun k line hk => (nomatch hk), rfl⟩
  | append_singleton lines line ih =>
    have hlines : lines.length < 0x100000000 := by
      rw [List.length_append, List.length_singleton] at h
      exact Nat.lt_of_succ_lt h
    obtain ⟨kept, hlength, hkept, htokens⟩ := ih hlines
    obtain ⟨words, hreads, htokens', _⟩ := exists_reads (ofLines lines) line
    have hnumber : lineAfter (ofLines lines).lineCount = lines.length + 1 := by
      rw [lineCount_ofLines hlines, lineAfter]
      rw [List.length_append, List.length_singleton] at h
      omega
    rw [hnumber] at hreads htokens'
    refine ⟨kept ++ [words], ?_, fun k line' hk => ?_, ?_⟩
    · rw [List.length_append, List.length_append, hlength]
      rfl
    · rcases Nat.lt_or_ge k lines.length with hlt | hge
      · rw [List.getElem?_append_left hlt] at hk
        rw [List.getElem?_append_left (hlength ▸ hlt),
          List.take_append_of_le_length (Nat.le_of_lt hlt)]
        exact hkept k line' hk
      · have hlast : k < (lines ++ [line]).length := (List.getElem?_eq_some_iff.1 hk).1
        rw [List.length_append, List.length_singleton] at hlast
        obtain rfl : k = lines.length := by omega
        rw [List.getElem?_append_right (Nat.le_refl _), Nat.sub_self] at hk
        cases hk
        refine ⟨words, ?_, ?_⟩
        · rw [← hlength, List.getElem?_append_right (Nat.le_refl _), Nat.sub_self]
          rfl
        · rw [List.take_left]
          exact hreads
    · rw [ofLines_concat, htokens', htokens, Token.numbered_concat, hlength, Nat.add_comm 1]

theorem of_mem_codeWords {line : String} (h : word ∈ codeWords line) :
    word ≠ "" ∧ ∀ c ∈ word.toList, Text.isBlank c = false ∧ c ≠ ';' := by
  obtain ⟨runs, hruns, hwords⟩ := Text.exists_runs (line.toList.takeWhile (· ≠ commentMarker))
  rw [codeWords, hwords] at h
  obtain ⟨r, hr, rfl⟩ := List.mem_map.1 h
  have hrun := (hruns.mem_iff r).1 hr
  refine ⟨hrun.part_ne_empty, fun c hc => ?_⟩
  obtain ⟨hmem, hblank⟩ := hrun.mem_part hc
  have hcode := List.mem_takeWhile_imp hmem
  exact ⟨hblank, of_decide_eq_true hcode⟩

/-- The tokens of lines are the runs in what is before the first semicolon of each line, with the
    number of the line, except for what a line is refused for and what comes after that in it. -/
theorem tokens_of_lines (h : lines.length < 0x100000000) :
    ∃ kept : List (List String), kept.length = lines.length ∧
      (∀ k line, lines[k]? = some line → ∃ runs words,
        Text.Runs (line.toList.takeWhile (· ≠ ';')) runs ∧ kept[k]? = some words ∧
        Reads (ofLines (lines.take k)).tokens.size (k + 1)
          (runs.map (Text.part (line.toList.takeWhile (· ≠ ';')))) words
          ((ofLines (lines.take k)).addLine line).2) ∧
      (ofLines lines).tokens.toList = Token.numbered 1 kept ∧
      (∀ t ∈ (ofLines lines).tokens, t.text ≠ "" ∧
        ∀ c ∈ t.text.toList, c ∉ [' ', '\t', '\r', ';', '+']) ∧
      (ofLines lines).tokens.size ≤ 4096 ∧
      (ofLines lines).tokens.toList.Pairwise fun t t' => t.line ≤ t'.line := by
  obtain ⟨kept, hlength, hkept, htokens⟩ := exists_kept h
  refine ⟨kept, hlength, fun k line hk => ?_, htokens, fun t ht => ?_, size_ofLines_le lines, ?_⟩
  · obtain ⟨words, hwords, hreads⟩ := hkept k line hk
    obtain ⟨runs, hruns, hcode⟩ := Text.exists_runs (line.toList.takeWhile (· ≠ ';'))
    refine ⟨runs, words, hruns, hwords, ?_⟩
    rw [← hcode]
    exact hreads
  · rw [← Array.mem_toList_iff, htokens] at ht
    obtain ⟨k, words, hk, hword, -⟩ := Token.mem_numbered_iff.1 ht
    have hline := List.getElem?_eq_getElem (hlength ▸ (List.getElem?_eq_some_iff.1 hk).1)
    obtain ⟨words', hk', hreads⟩ := hkept k _ hline
    obtain rfl : words = words' := Option.some.inj (hk.symm.trans hk')
    obtain ⟨hne, hchars⟩ := of_mem_codeWords (hreads.subset hword)
    obtain ⟨i, hi⟩ := List.mem_iff_getElem?.1 hword
    refine ⟨hne, fun c hc hmem => ?_⟩
    obtain ⟨hblank, hsemicolon⟩ := hchars c hc
    have hplus := (hreads.fit i _ hi).1
    simp only [List.mem_cons, List.not_mem_nil, or_false] at hmem
    rcases hmem with rfl | rfl | rfl | rfl | rfl
    · cases hblank
    · cases hblank
    · cases hblank
    · exact hsemicolon rfl
    · exact hplus hc
  · rw [htokens]
    exact Token.pairwise_numbered kept

/-- Lines of which the first is refused for its second word, and the last is not, as what is wrong
    with it is in its comment. -/
def refusedLines : List String :=
  ["a\tb+ c", "", "d ; e+"]

theorem tokens_of_lines_refused :
    refusedLines.length < 0x100000000 ∧
      (∃ runs words, Text.Runs ("a\tb+ c".toList.takeWhile (· ≠ ';')) runs ∧
        Reads 0 1 (runs.map (Text.part ("a\tb+ c".toList.takeWhile (· ≠ ';')))) words
          (some ⟨.illegalToken, 1⟩)) ∧
      (∃ runs words, Text.Runs ("d ; e+".toList.takeWhile (· ≠ ';')) runs ∧
        Reads 1 3 (runs.map (Text.part ("d ; e+".toList.takeWhile (· ≠ ';')))) words none) ∧
      (ofLines refusedLines).tokens.toList = [⟨"a", 1⟩, ⟨"d", 3⟩] ∧
      (ofLines refusedLines).tokens.toList.Pairwise fun t t' => t.line ≤ t'.line := by
  have hlength : refusedLines.length < 0x100000000 := by decide
  obtain ⟨kept, _, hkept, _, _, _, hlines⟩ := tokens_of_lines hlength
  obtain ⟨runs, words, hruns, _, hreads⟩ := hkept 0 _ rfl
  obtain ⟨runs', words', hruns', _, hreads'⟩ := hkept 2 _ rfl
  exact ⟨hlength, ⟨runs, words, hruns, hreads⟩, ⟨runs', words', hruns', hreads'⟩,
    by decide +kernel, hlines⟩

end Source

end GridBots
