import GridBots.Proofs.Addresses
import GridBots.Proofs.Bodies

/-!
# Braces and their partners

The blocks of a program are what the braces among its tokens enclose
(`Block.find_matches_braces`). Two braces are partners (`Token.Matches`) if the braces between
them are balanced. The tokens are *scanned* from the first to the last, but for the names of labels
(`Token.scanned`), and one of them may be in the way of the scan (`Token.offence?`). If none is, all
that may still be wrong is that braces are open in the end.

Which braces are open is kept track of by a stack: they are those of a stack if the tokens after
each of them are balanced up to the next (`Token.Unclosed`). A scan pushes and pops them, token by
token (`Token.Unclosed.scanTells`), and in the end the innermost of them is the last that
has no partner (`Token.Unclosed.exists_last`).
-/

namespace GridBots

namespace Token

/-- The tokens between two places, without those at the places. -/
def between (tokens : List Token) (first last : Nat) : List Token :=
  (tokens.take last).drop (first + 1)

/-- The braces at two places are partners: one opens a block and the other closes it. -/
structure Matches (tokens : List Token) (first last : Nat) : Prop where
  lt : first < last
  opens : ∃ t, tokens[first]? = some t ∧ t.text = blockOpen
  closes : ∃ t, tokens[last]? = some t ∧ t.text = blockClose
  balanced : Balanced 0 (between tokens first last)

/-- A token is the last of the braces that open a block and have no partner. -/
structure LastUnclosed (tokens : List Token) (first : Nat) (t : Token) : Prop where
  getElem?_eq : tokens[first]? = some t
  opens : t.text = blockOpen
  not_matches : ∀ last, ¬Matches tokens first last
  matches_later : ∀ first' t', first < first' → tokens[first']? = some t' → t'.text = blockOpen →
    ∃ last, Matches tokens first' last

/-- The places of the tokens that are scanned, the first of which has the given index. The token
    after a label is its name, which is not scanned, whatever it is. -/
def scanned (index : Nat) : List Token → List Nat
  | [] => []
  | t :: rest =>
    index ::
      if t.isLabel then
        match rest with
        | [] => []
        | _ :: rest => scanned (index + 2) rest
      else scanned (index + 1) rest

/-- What is wrong with the token at a place, whatever comes later: it is a brace that closes a block
    where none is open, a label without a name, or a brace that opens one block too many. -/
def offence? (tokens : List Token) (i : Nat) : Option AssemblyError :=
  tokens[i]?.bind fun t =>
    if t.text = blockClose ∧ opened (tokens.take i) ≤ closed (tokens.take i) then
      some ⟨.braceMismatch, t.line⟩
    else if t.isLabel ∧ tokens[i + 1]?.any canBeName = false then some ⟨.malformedLabel, t.line⟩
    else if t.text = blockOpen ∧ opened (tokens.take i) = Block.cap then
      some ⟨.tooManySymbols, t.line⟩
    else none

/-- Tokens leave braces open, the innermost first. Between them, braces are balanced. -/
inductive Unclosed : List Token → List Token → Prop
  | nil {tokens : List Token} : Balanced 0 tokens → Unclosed tokens []
  | cons {tokens stack inner : List Token} {t : Token} : Unclosed tokens stack →
      t.text = blockOpen → Balanced 0 inner → Unclosed (tokens ++ t :: inner) (t :: stack)

variable {tokens pre post rest stack inner : List Token} {t t' name : Token}

/-! ## Balanced braces -/

theorem opened_append (pre post : List Token) : opened (pre ++ post) = opened pre + opened post :=
  List.countP_append

theorem closed_append (pre post : List Token) : closed (pre ++ post) = closed pre + closed post :=
  List.countP_append

theorem Balanced.append {depth later : Nat} (hpre : Balanced depth pre)
    (hpost : Balanced later post) : Balanced (depth + later) (pre ++ post) := by
  refine ⟨fun i => ?_, ?_⟩
  · have hi := hpre.closed_take_le i
    have hj := hpost.closed_take_le (i - pre.length)
    rw [List.take_append, closed_append, opened_append]
    omega
  · have heq := hpre.closed_eq
    have heq' := hpost.closed_eq
    rw [closed_append, opened_append]
    omega

/-- The last of balanced tokens are balanced where the first leave blocks open. -/
theorem Balanced.of_append {depth : Nat} (h : Balanced depth (pre ++ post)) :
    Balanced (depth + opened pre - closed pre) post := by
  have hpre := h.closed_take_le pre.length
  rw [List.take_left] at hpre
  refine ⟨fun i => ?_, ?_⟩
  · have hi := h.closed_take_le (pre.length + i)
    rw [List.take_length_add_append, closed_append, opened_append] at hi
    omega
  · have heq := h.closed_eq
    rw [closed_append, opened_append] at heq
    omega

theorem balanced_singleton (ho : t.text ≠ blockOpen) (hc : t.text ≠ blockClose) :
    Balanced 0 [t] :=
  (balanced_of_ne_iff ho hc).2 (balanced_nil_iff.2 rfl)

/-- Neither a label nor its name is a brace. -/
theorem balanced_label (ht : t.isLabel = true) (hname : name.canBeName = true) :
    Balanced 0 [t, name] :=
  have hlabel := Piece.text_ne_of_isLabel ht
  have hne := Piece.text_ne_of_canBeName hname
  (balanced_singleton hlabel.1 hlabel.2).append (balanced_singleton hne.1 hne.2)

theorem opened_append_label (pre : List Token) (ht : t.isLabel = true)
    (hname : name.canBeName = true) : opened (pre ++ [t, name]) = opened pre := by
  rw [opened_append, opened_cons, opened_of_ne (Piece.text_ne_of_isLabel ht).1,
    opened_of_ne (Piece.text_ne_of_canBeName hname).1, Nat.add_zero]

/-- A block is balanced with its braces. -/
theorem Balanced.enclosed (h : Balanced 0 inner) (ht : t.text = blockOpen)
    (ht' : t'.text = blockClose) : Balanced 0 (t :: inner ++ [t']) := by
  have hclose : Balanced 1 [t'] := (balanced_blockClose_iff ht').2 (balanced_nil_iff.2 rfl)
  exact (balanced_blockOpen_iff ht).2 (h.append hclose)

/-- Among balanced tokens, the token after the first of them is no brace that closes a block if
    the first are balanced, too. -/
theorem Balanced.text_ne_blockClose (h : Balanced 0 (pre ++ t :: post)) (hpre : Balanced 0 pre) :
    t.text ≠ blockClose := by
  intro ht
  have hpost := h.of_append
  rw [hpre.closed_eq, Nat.sub_self] at hpost
  exact not_balanced_of_blockClose ht hpost

/-! ## Partners -/

theorem between_eq_take (tokens : List Token) {first last : Nat} :
    between tokens first last = (tokens.drop (first + 1)).take (last - (first + 1)) :=
  List.drop_take

/-- The tokens up to a place between two others, and those from it on. -/
theorem between_eq_append {first i last : Nat} (hfirst : first < i) (hlast : i < last)
    (hi : tokens[i]? = some t) :
    between tokens first last = between tokens first i ++ t :: between tokens i last := by
  have htake : (tokens.take last)[i]? = some t := by rw [List.getElem?_take_of_lt hlast, hi]
  rw [between, eq_take_cons_drop htake, List.take_take, Nat.min_eq_left (Nat.le_of_lt hlast),
    List.drop_append_of_le_length, between, between]
  rw [List.length_take, Nat.le_min]
  exact ⟨hfirst, Nat.le_trans hfirst (Nat.le_of_lt (List.getElem?_eq_some_iff.1 hi).1)⟩

/-- No more blocks are closed than are opened after a brace, before the partner of the brace. -/
theorem Matches.closed_between_le {first i last : Nat} (h : Matches tokens first last)
    (hi : i ≤ last) : closed (between tokens first i) ≤ opened (between tokens first i) := by
  have hle := h.balanced.closed_take_le (i - (first + 1))
  rwa [between_eq_take, List.take_take, Nat.min_eq_left (Nat.sub_le_sub_right hi _),
    ← between_eq_take, Nat.zero_add] at hle

/-- A brace has one partner only. -/
theorem Matches.unique {first last last' : Nat} (h : Matches tokens first last)
    (h' : Matches tokens first last') : last = last' := by
  have hle : ∀ {last last' : Nat}, Matches tokens first last → Matches tokens first last' →
      last' ≤ last := by
    intro last last' h h'
    by_contra hlt
    obtain ⟨t, ht, hc⟩ := h.closes
    have hbalanced := h'.balanced
    rw [between_eq_append h.lt (Nat.lt_of_not_le hlt) ht] at hbalanced
    exact hbalanced.text_ne_blockClose h.balanced hc
  exact Nat.le_antisymm (hle h' h) (hle h h')

/-- Of two blocks, the one that is opened later comes after the other or is inside of it. -/
theorem Matches.disjoint_or_nested {first last first' last' : Nat} (h : Matches tokens first last)
    (h' : Matches tokens first' last') (hlt : first < first') : last < first' ∨ last' < last := by
  by_contra hcross
  obtain ⟨hle, hle'⟩ := not_or.1 hcross
  obtain ⟨t, ht, ho⟩ := h'.opens
  obtain ⟨t', ht', hc⟩ := h.closes
  have hne : first' ≠ last := by
    rintro rfl
    rw [ht] at ht'
    cases ht'
    rw [ho] at hc
    exact absurd hc (by decide)
  have hin : first' < last := Nat.lt_of_le_of_ne (Nat.le_of_not_lt hle) hne
  -- Between the braces of the first block, the second is opened, and no more are closed than
  -- are opened before it and after it.
  have heq := h.balanced.closed_eq
  rw [between_eq_append hlt hin ht, closed_append, opened_append, closed_cons, opened_cons,
    opened_of_blockOpen ho, closed_of_ne (by rw [ho]; decide)] at heq
  have hbefore := h.closed_between_le (Nat.le_of_lt hin)
  have hafter := h'.closed_between_le (Nat.le_of_not_lt hle')
  omega

/-- Up to the brace that is found to close a block, the inner blocks are closed. -/
theorem exists_of_closing? {depth index last : Nat} (h : closing? depth index tokens = some last) :
    ∃ inner t post, tokens = inner ++ t :: post ∧ t.text = blockClose ∧ Balanced depth inner ∧
      last = index + inner.length := by
  induction tokens generalizing depth index with
  | nil => cases h
  | cons t rest ih =>
    by_cases ho : t.text = blockOpen
    · rw [Piece.closing?_of_blockOpen ho] at h
      obtain ⟨inner, t', post, rfl, ht', hb, rfl⟩ := ih h
      exact ⟨t :: inner, t', post, rfl, ht', (balanced_blockOpen_iff ho).2 hb,
        Nat.add_right_comm _ _ _⟩
    by_cases hc : t.text = blockClose
    · cases depth with
      | zero =>
        rw [Piece.closing?_zero hc] at h
        exact ⟨[], t, rest, rfl, hc, balanced_nil_iff.2 rfl, (Option.some.inj h).symm⟩
      | succ depth =>
        rw [Piece.closing?_succ hc] at h
        obtain ⟨inner, t', post, rfl, ht', hb, rfl⟩ := ih h
        exact ⟨t :: inner, t', post, rfl, ht', (balanced_blockClose_iff hc).2 hb,
          Nat.add_right_comm _ _ _⟩
    · rw [Piece.closing?_of_ne ho hc] at h
      obtain ⟨inner, t', post, rfl, ht', hb, rfl⟩ := ih h
      exact ⟨t :: inner, t', post, rfl, ht', (balanced_of_ne_iff ho hc).2 hb,
        Nat.add_right_comm _ _ _⟩

/-- If all blocks are closed in the end, a brace is found that closes an open one. -/
theorem Balanced.exists_closing? {outer : Nat} (depth index : Nat)
    (h : Balanced (outer + depth + 1) tokens) :
    ∃ last, closing? depth index tokens = some last := by
  induction tokens generalizing depth index with
  | nil => exact absurd (balanced_nil_iff.1 h) (Nat.succ_ne_zero _)
  | cons t rest ih =>
    by_cases ho : t.text = blockOpen
    · rw [Piece.closing?_of_blockOpen ho]
      exact ih _ _ ((balanced_blockOpen_iff ho).1 h)
    by_cases hc : t.text = blockClose
    · cases depth with
      | zero => exact ⟨index, Piece.closing?_zero hc⟩
      | succ depth =>
        rw [Piece.closing?_succ hc]
        exact ih _ _ ((balanced_blockClose_iff hc).1 h)
    · rw [Piece.closing?_of_ne ho hc]
      exact ih _ _ ((balanced_of_ne_iff ho hc).1 h)

/-- The brace that is found to close a block is the partner of the one that opens it. -/
theorem matches_of_closing? {first last : Nat} (ht : tokens[first]? = some t)
    (ho : t.text = blockOpen)
    (h : closing? 0 (first + 1) (tokens.drop (first + 1)) = some last) :
    Matches tokens first last := by
  obtain ⟨inner, t', post, hdrop, hc, hb, rfl⟩ := exists_of_closing? h
  refine ⟨by omega, ⟨t, ht, ho⟩, ⟨t', ?_, hc⟩, ?_⟩
  · rw [← List.getElem?_drop, hdrop, List.getElem?_append_right (Nat.le_refl _), Nat.sub_self]
    rfl
  · rwa [between_eq_take, hdrop, Nat.add_sub_cancel_left, List.take_left]

/-! ## Open braces -/

namespace Unclosed

theorem append (h : Unclosed tokens stack) (hpost : Balanced 0 post) :
    Unclosed (tokens ++ post) stack := by
  cases h with
  | nil hb => exact .nil (hb.append hpost)
  | cons h ht hb =>
    rw [List.append_assoc]
    exact .cons h ht (hb.append hpost)

theorem push (h : Unclosed tokens stack) (ht : t.text = blockOpen) :
    Unclosed (tokens ++ [t]) (t :: stack) :=
  .cons h ht (balanced_nil_iff.2 rfl)

theorem pop (h : Unclosed tokens (t :: stack)) (ht' : t'.text = blockClose) :
    Unclosed (tokens ++ [t']) stack := by
  cases h with
  | cons h ht hb =>
    rw [List.append_assoc]
    exact h.append (hb.enclosed ht ht')

/-- As many blocks are open as have been opened and not closed. -/
theorem opened_eq (h : Unclosed tokens stack) : opened tokens = closed tokens + stack.length := by
  induction h with
  | nil hb => simp [hb.closed_eq]
  | cons _ ht hb ih =>
    rw [opened_append, closed_append, opened_cons, closed_cons, opened_of_blockOpen ht,
      closed_of_ne (by rw [ht]; decide), ih, hb.closed_eq, List.length_cons]
    omega

/-- The innermost brace that is open is the last that has no partner. -/
theorem exists_last (h : Unclosed tokens (t :: stack)) : ∃ first, LastUnclosed tokens first t := by
  cases h with
  | @cons tokens _ inner _ h ht hb =>
    have hdrop : (tokens ++ t :: inner).drop (tokens.length + 1) = inner := by
      rw [← List.drop_drop, List.drop_left, List.drop_succ_cons, List.drop_zero]
    refine ⟨tokens.length, by simp, ht, fun last hm => ?not_matches,
      fun first' t' hlt ht' ho => ?matches_later⟩
    case not_matches =>
      -- What is between the brace and its partner comes first inside of what is balanced.
      obtain ⟨t', ht', hc⟩ := hm.closes
      have hbalanced := hm.balanced
      have hle : tokens.length + 1 ≤ last := hm.lt
      rw [← Nat.add_sub_cancel' hle, ← List.getElem?_drop, hdrop] at ht'
      rw [between_eq_take, hdrop] at hbalanced
      rw [eq_take_cons_drop ht'] at hb
      exact hb.text_ne_blockClose hbalanced hc
    case matches_later =>
      obtain ⟨i, rfl⟩ := Nat.exists_eq_add_of_lt hlt
      have hi : inner[i]? = some t' := by
        rw [← hdrop, List.getElem?_drop, ← ht']
        congr 1
        omega
      rw [eq_take_cons_drop hi] at hb
      have hlater := (balanced_blockOpen_iff ho).1 hb.of_append
      rw [← hdrop, List.drop_drop] at hlater
      obtain ⟨last, hlast⟩ := hlater.exists_closing? 0 (tokens.length + i + 1 + 1)
      refine ⟨last, matches_of_closing? ht' ho ?_⟩
      rwa [Nat.add_right_comm tokens.length i 1, Nat.add_assoc (tokens.length + 1)] at hlast ⊢

end Unclosed

/-! ## The scan -/

theorem scanned_cons (index : Nat) (ht : ¬t.isLabel = true) :
    scanned index (t :: rest) = index :: scanned (index + 1) rest := by
  rw [scanned.eq_def]
  exact congrArg _ (if_neg ht)

theorem scanned_label (index : Nat) (ht : t.isLabel = true) :
    scanned index (t :: name :: rest) = index :: scanned (index + 2) rest := by
  rw [scanned, if_pos ht]

theorem offence?_append (pre : List Token) (t : Token) (rest : List Token) :
    offence? (pre ++ t :: rest) pre.length =
      if t.text = blockClose ∧ opened pre ≤ closed pre then some ⟨.braceMismatch, t.line⟩
      else if t.isLabel ∧ rest.head?.any canBeName = false then some ⟨.malformedLabel, t.line⟩
      else if t.text = blockOpen ∧ opened pre = Block.cap then some ⟨.tooManySymbols, t.line⟩
      else none := by
  have hnext : (pre ++ t :: rest)[pre.length + 1]? = rest.head? := by
    rw [← List.getElem?_drop, List.head?_eq_getElem?]
    simp
  rw [offence?, hnext, List.take_left, List.getElem?_append_right (Nat.le_refl _), Nat.sub_self]
  rfl

/-- Nothing is wrong with a token that is neither a brace nor a label. -/
theorem offence?_eq_none (ho : t.text ≠ blockOpen) (hc : t.text ≠ blockClose)
    (ht : ¬t.isLabel = true) : offence? (pre ++ t :: rest) pre.length = none := by
  simp [offence?_append, ho, hc, ht]

theorem offence?_blockOpen (ho : t.text = blockOpen) :
    offence? (pre ++ t :: rest) pre.length =
      if opened pre = Block.cap then some ⟨.tooManySymbols, t.line⟩ else none := by
  have hc : blockOpen ≠ blockClose := by decide
  simp [offence?_append, ho, hc, Piece.not_isLabel_of_blockOpen ho]

theorem offence?_blockClose (hc : t.text = blockClose) :
    offence? (pre ++ t :: rest) pre.length =
      if opened pre ≤ closed pre then some ⟨.braceMismatch, t.line⟩ else none := by
  have ho : blockClose ≠ blockOpen := by decide
  simp [offence?_append, hc, ho, Piece.not_isLabel_of_blockClose hc]

theorem offence?_label (ht : t.isLabel = true) :
    offence? (pre ++ t :: rest) pre.length =
      if rest.head?.any canBeName = false then some ⟨.malformedLabel, t.line⟩ else none := by
  obtain ⟨ho, hc⟩ := Piece.text_ne_of_isLabel ht
  simp [offence?_append, ho, hc, ht]

/-- A scan tells what is wrong with the rest of tokens, where the tokens before leave the braces of
    a stack open: the first offence, or if there is none, that braces are open in the end. -/
def ScanTells (pre stack rest : List Token) : Prop :=
  ∃ last, ((scanned pre.length rest).findSome? (offence? (pre ++ rest)) = none →
      Unclosed (pre ++ rest) last) ∧
    Block.firstFault? (opened pre) (stack.map Token.line) (Piece.ofTokens rest) =
      ((scanned pre.length rest).findSome? (offence? (pre ++ rest))).or
        (last.head?.map fun t => ⟨.braceMismatch, t.line⟩)

theorem scanTells_of_offence {e : AssemblyError}
    (hoffence : offence? (pre ++ t :: rest) pre.length = some e)
    (hfault : Block.firstFault? (opened pre) (stack.map Token.line) (Piece.ofTokens (t :: rest)) =
      some e) : ScanTells pre stack (t :: rest) := by
  have hfirst :
      (scanned pre.length (t :: rest)).findSome? (offence? (pre ++ t :: rest)) = some e := by
    rw [scanned.eq_def, List.findSome?_cons, hoffence]
  exact ⟨[], by simp [hfirst], by rw [hfirst, hfault]; rfl⟩

/-- A scan goes on after a token that is not in its way. -/
theorem ScanTells.cons {stack' : List Token} (h : ScanTells (pre ++ [t]) stack' rest)
    (ht : ¬t.isLabel = true) (hoffence : offence? (pre ++ t :: rest) pre.length = none)
    (hfault : Block.firstFault? (opened pre) (stack.map Token.line) (Piece.ofTokens (t :: rest)) =
      Block.firstFault? (opened (pre ++ [t])) (stack'.map Token.line) (Piece.ofTokens rest)) :
    ScanTells pre stack (t :: rest) := by
  rw [ScanTells, List.append_assoc, List.length_append] at h
  rw [ScanTells, hfault, scanned_cons _ ht, List.findSome?_cons, hoffence]
  exact h

/-- It goes on after a label and its name. -/
theorem ScanTells.label (h : ScanTells (pre ++ [t, name]) stack rest) (ht : t.isLabel = true)
    (hname : name.canBeName = true) : ScanTells pre stack (t :: name :: rest) := by
  rw [ScanTells, opened_append_label pre ht hname, List.append_assoc, List.length_append] at h
  rw [ScanTells, Piece.ofTokens_label ht hname, scanned_label _ ht, List.findSome?_cons,
    offence?_label ht]
  simpa [hname, Block.firstFault?] using h

/-- The stack of open braces changes with each token that is scanned, until one is in the way or
    there are no more. -/
theorem Unclosed.scanTells (h : Unclosed pre stack) (hcap : opened pre ≤ Block.cap)
    (rest : List Token) : ScanTells pre stack rest := by
  induction rest using Piece.ofTokens.induct generalizing pre stack with
  | case1 =>
    refine ⟨stack, fun _ => by rwa [List.append_nil], ?_⟩
    cases stack <;> rfl
  | case2 t ht =>
    refine scanTells_of_offence (offence?_label ht) ?_
    rw [Piece.ofTokens, if_pos ht]
    rfl
  | case3 t ht name rest hn ih =>
    have hopened : opened (pre ++ [t, name]) ≤ Block.cap := by rwa [opened_append_label pre ht hn]
    exact (ih (h.append (balanced_label ht hn)) hopened).label ht hn
  | case4 t ht name rest hn ih =>
    have hnameless : (name :: rest).head?.any canBeName = false := by simp [hn]
    refine scanTells_of_offence ((offence?_label ht).trans (if_pos hnameless)) ?_
    rw [Piece.ofTokens_namelessLabel ht hn]
    rfl
  | case5 t rest ht ih =>
    have hp : Piece.ofTokens (t :: rest) = Piece.ofToken t :: Piece.ofTokens rest :=
      Piece.ofTokens_cons ht
    by_cases ho : t.text = blockOpen
    · rw [Piece.ofToken_blockOpen ho] at hp
      by_cases hfull : opened pre = Block.cap
      · refine scanTells_of_offence ((offence?_blockOpen ho).trans (if_pos hfull)) ?_
        rw [hp, Block.firstFault?, if_pos (Nat.le_of_eq hfull.symm)]
      · have hopened : opened (pre ++ [t]) = opened pre + 1 := by
          rw [opened_append, opened_of_blockOpen ho]
        refine (ih (h.push ho) (by omega)).cons ht ((offence?_blockOpen ho).trans (if_neg hfull)) ?_
        rw [hp, Block.firstFault?, if_neg (by omega), hopened]
        rfl
    have hopened : opened (pre ++ [t]) = opened pre := by
      rw [opened_append, opened_of_ne ho, Nat.add_zero]
    by_cases hc : t.text = blockClose
    · have hopen := h.opened_eq
      rw [Piece.ofToken_blockClose hc] at hp
      cases stack with
      | nil =>
        have hclosed : opened pre ≤ closed pre := Nat.le_of_eq hopen
        refine scanTells_of_offence ((offence?_blockClose hc).trans (if_pos hclosed)) ?_
        rw [hp]
        rfl
      | cons x stack =>
        rw [List.length_cons] at hopen
        refine (ih (h.pop hc) (by rwa [hopened])).cons ht
          ((offence?_blockClose hc).trans (if_neg (by omega))) ?_
        rw [hp, hopened]
        rfl
    · refine (ih (h.append (balanced_singleton ho hc)) (by rwa [hopened])).cons ht
        (offence?_eq_none ho hc ht) ?_
      rw [hp, hopened]
      rcases Piece.ofToken_cases t with ⟨h, _⟩ | ⟨h, _⟩ | ⟨_, _, ⟨_, _, h⟩ | ⟨_, h⟩⟩
      · exact absurd h ho
      · exact absurd h hc
      · rw [h]; rfl
      · rw [h]; rfl

end Token

/-! ## Blocks -/

namespace Block

open Token (LastUnclosed Matches between offence? opened scanned written)

variable {tokens : List Token} {e : AssemblyError}

/-- Every brace that opens a block opens one of the blocks, in the order of the braces. -/
theorem ofPieces_eq_map (pre rest : List Token) :
    ofPieces pre.length (Piece.ofTokens rest) =
      (rest.findIdxs (fun t => t.text = Token.blockOpen) pre.length).map fun i =>
        openedAt i (Piece.ofTokens ((pre ++ rest).drop (i + 1))) := by
  induction rest using Piece.ofTokens.induct generalizing pre with
  | case1 => rfl
  | case2 t ht => simp [Piece.ofTokens, ht, ofPieces, (Piece.text_ne_of_isLabel ht).1]
  | case3 t ht name rest hn ih =>
    have hlater := ih (pre ++ [t, name])
    rw [List.append_assoc, List.length_append] at hlater
    rw [Piece.ofTokens_label ht hn, ofPieces, List.findIdxs_cons, List.findIdxs_cons]
    simpa [(Piece.text_ne_of_isLabel ht).1, (Piece.text_ne_of_canBeName hn).1, Item.tokenCount,
      Nat.add_assoc] using hlater
  | case4 t ht name rest hn ih =>
    have hlater := ih (pre ++ [t])
    rw [List.append_assoc, List.length_append] at hlater
    rw [Piece.ofTokens_namelessLabel ht hn, ofPieces, List.findIdxs_cons]
    simpa [(Piece.text_ne_of_isLabel ht).1, Item.tokenCount] using hlater
  | case5 t rest ht ih =>
    have hlater := ih (pre ++ [t])
    rw [List.append_assoc, List.length_append] at hlater
    rw [Piece.ofTokens_cons ht, List.findIdxs_cons, ofPieces, Piece.tokenCount_ofToken]
    rcases Piece.ofToken_cases t with ⟨ho, hp⟩ | ⟨hc, hp⟩ | ⟨ho, _, ⟨_, _, hp⟩ | ⟨_, hp⟩⟩ <;>
      rw [hp]
    · have hdrop : (pre ++ t :: rest).drop (pre.length + 1) = rest := by
        rw [← List.drop_drop, List.drop_left]
        rfl
      simpa [ho, hdrop] using hlater
    · have ho : Token.blockClose ≠ Token.blockOpen := by decide
      simpa [hc, ho] using hlater
    · simpa [ho] using hlater
    · simpa [ho] using hlater

/-- Blocks are found if and only if every label has a name, the braces are balanced, and there are
    no more than 512 blocks. -/
theorem exists_find_eq_ok_iff :
    (∃ blocks, find (Piece.ofTokens tokens) = .ok blocks) ↔
      (∀ n ∈ Token.labelNames tokens, ∃ name : Token, n = some name ∧ name.canBeName = true) ∧
        Token.Balanced 0 tokens ∧ opened tokens ≤ 512 := by
  simp only [find_eq_ok_iff, exists_and_left, exists_eq', and_true]
  rw [fault?, firstFault?_eq_none_iff (Nat.zero_le _), Piece.named_ofTokens_iff, Nat.zero_add]
  rfl

/-- The pieces inside of a block are those of the tokens between its braces. -/
theorem inside_eq_ofTokens_between {i last : Nat} {t : Token}
    (hf : fault? (Piece.ofTokens tokens) = none) (hi : tokens[i]? = some t)
    (ht : t.text = Token.blockOpen)
    (hc : Token.closing? 0 (i + 1) (tokens.drop (i + 1)) = some last) :
    inside 0 (Piece.ofTokens (tokens.drop (i + 1))) = Piece.ofTokens (between tokens i last) := by
  have hlt := (Token.matches_of_closing? hi ht hc).lt
  have hi' : (tokens.take last)[i]? = some t := by rw [List.getElem?_take_of_lt hlt, hi]
  have hp := (ofTokens_take_close hf hi ht hc).1
  rw [Piece.ofTokens_of_blockOpen hi' ht, List.take_take, Nat.min_eq_left (Nat.le_of_lt hlt)] at hp
  exact (List.cons.inj (List.append_cancel_left hp)).2.symm

/-- A block has one word for every token between its braces that is written. -/
theorem widthOf_inside {i last : Nat} {t : Token} (hf : fault? (Piece.ofTokens tokens) = none)
    (hi : tokens[i]? = some t) (ht : t.text = Token.blockOpen)
    (hc : Token.closing? 0 (i + 1) (tokens.drop (i + 1)) = some last) :
    widthOf (inside 0 (Piece.ofTokens (tokens.drop (i + 1)))) =
      (written (between tokens i last)).length := by
  have hinside := inside_eq_ofTokens_between hf hi ht hc
  obtain ⟨hp, _, _, hclosing⟩ := ofTokens_take_close hf hi ht hc
  have hnamed : Piece.Named (Piece.ofTokens (between tokens i last)) := by
    have hall := ((firstFault?_eq_none_iff (Nat.zero_le cap)).1 hf).1
    rw [hclosing, hp, hinside] at hall
    exact fun p hmem => hall p (by simp [hmem])
  rw [hinside, ← Layout.length_slots_ofPieces [], Layout.length_slots_eq_written hnamed]

theorem ofPieces_zero (tokens : List Token) :
    ofPieces 0 (Piece.ofTokens tokens) =
      (tokens.findIdxs fun t => t.text = Token.blockOpen).map fun i =>
        openedAt i (Piece.ofTokens (tokens.drop (i + 1))) :=
  ofPieces_eq_map [] tokens

/-- The braces of a block are partners, and it has one word for every token between them that is
    written. -/
theorem matches_of_mem {b : Block} (hf : fault? (Piece.ofTokens tokens) = none)
    (hb : b ∈ ofPieces 0 (Piece.ofTokens tokens)) :
    Matches tokens b.opening b.closing ∧
      b.width = (written (between tokens b.opening b.closing)).length := by
  rw [ofPieces_zero] at hb
  obtain ⟨i, hi, rfl⟩ := List.mem_map.1 hb
  obtain ⟨hlt, hopen⟩ := List.mem_findIdxs_iff_exists_getElem_pos.1 hi
  have ht := List.getElem?_eq_getElem hlt
  have ho : tokens[i].text = Token.blockOpen := of_decide_eq_true hopen
  have hc := closing?_of_blockOpen hf ht ho
  exact ⟨Token.matches_of_closing? ht ho hc, widthOf_inside hf ht ho hc⟩

/-- Blocks are opened one after the other. -/
theorem map_opening_ofPieces (tokens : List Token) :
    (ofPieces 0 (Piece.ofTokens tokens)).map opening =
      tokens.findIdxs fun t => t.text = Token.blockOpen := by
  rw [ofPieces_zero, List.map_map]
  exact List.map_id _

theorem pairwise_ofPieces (hf : fault? (Piece.ofTokens tokens) = none) :
    (ofPieces 0 (Piece.ofTokens tokens)).Pairwise fun b b' =>
      b.closing < b'.opening ∨ b'.closing < b.closing := by
  have hsorted : ((ofPieces 0 (Piece.ofTokens tokens)).map opening).Pairwise (· < ·) := by
    rw [map_opening_ofPieces]
    exact List.pairwise_findIdxs
  rw [List.pairwise_map] at hsorted
  exact hsorted.imp_of_mem fun hb hb' hlt =>
    (matches_of_mem hf hb).1.disjoint_or_nested (matches_of_mem hf hb').1 hlt

/-- What is wrong with tokens is the first offence of a token that is scanned, or if there is none,
    that the last of the braces that have no partner is not closed. -/
theorem offence_or_unclosed (h : fault? (Piece.ofTokens tokens) = some e) :
    (scanned 0 tokens).findSome? (offence? tokens) = some e ∨
      (scanned 0 tokens).findSome? (offence? tokens) = none ∧
        ∃ first t, LastUnclosed tokens first t ∧ e = ⟨.braceMismatch, t.line⟩ := by
  have hnil : Token.Unclosed [] [] := .nil (Token.balanced_nil_iff.2 rfl)
  obtain ⟨stack, hopen, heq⟩ := hnil.scanTells (Nat.zero_le cap) tokens
  have hfirst : (((scanned 0 tokens).findSome? (offence? tokens)).or
      (stack.head?.map fun t => ⟨.braceMismatch, t.line⟩)) = some e := heq.symm.trans h
  cases hscan : (scanned 0 tokens).findSome? (offence? tokens) with
  | some e' =>
    rw [hscan] at hfirst
    exact .inl hfirst
  | none =>
    rw [hscan, Option.none_or] at hfirst
    obtain ⟨t, ht, rfl⟩ := Option.map_eq_some_iff.1 hfirst
    obtain ⟨_, rfl⟩ := List.head?_eq_some_iff.1 ht
    obtain ⟨first, hlast⟩ := (hopen hscan).exists_last
    exact .inr ⟨rfl, first, t, hlast, rfl⟩

/-- The blocks of a program are what partners among its braces enclose. They are found if every
    label has a name, the braces are balanced and there are no more than 512 of them. Then there is
    one for each brace that opens a block, in the order of these braces; it is closed by the only
    partner of the brace, and has one word for every token between them that is written, so that two
    blocks are one after the other or one inside of the other.

    Otherwise, the error is that of the first token that is scanned and in the way: a brace that
    closes a block where none is open, a label without a name, or the brace after 512 others. If
    there is no such token, a brace has no partner, and the error is on the line of the last one. -/
theorem find_matches_braces (tokens : List Token) :
    ((∃ blocks, find (Piece.ofTokens tokens) = .ok blocks) ↔
      (∀ n ∈ Token.labelNames tokens, ∃ name : Token, n = some name ∧ name.canBeName = true) ∧
        Token.Balanced 0 tokens ∧ opened tokens ≤ 512) ∧
    (∀ blocks, find (Piece.ofTokens tokens) = .ok blocks →
      (blocks.map opening = tokens.findIdxs fun t => t.text = Token.blockOpen) ∧
      (∀ b ∈ blocks, (∀ last, Matches tokens b.opening last ↔ last = b.closing) ∧
        b.width = (written (between tokens b.opening b.closing)).length) ∧
      blocks.Pairwise fun b b' => b.closing < b'.opening ∨ b'.closing < b.closing) ∧
    ∀ e, find (Piece.ofTokens tokens) = .error e →
      (scanned 0 tokens).findSome? (offence? tokens) = some e ∨
      (scanned 0 tokens).findSome? (offence? tokens) = none ∧
        ∃ first t, LastUnclosed tokens first t ∧ e = ⟨.braceMismatch, t.line⟩ := by
  refine ⟨exists_find_eq_ok_iff, fun blocks h => ?_,
    fun e h => offence_or_unclosed (find_eq_error_iff.1 h)⟩
  obtain ⟨hf, rfl⟩ := find_eq_ok_iff.1 h
  refine ⟨map_opening_ofPieces tokens, fun b hb => ?_, pairwise_ofPieces hf⟩
  obtain ⟨hmatches, hwidth⟩ := matches_of_mem hf hb
  exact ⟨fun last => ⟨fun hlast => hlast.unique hmatches, fun hlast => hlast ▸ hmatches⟩, hwidth⟩

/-- A block inside of another one that is not closed. -/
def halfClosed : List Token :=
  [⟨Token.blockOpen, 1⟩, ⟨Token.blockOpen, 2⟩, ⟨Token.blockClose, 3⟩]

theorem find_matches_braces_nested :
    find (Piece.ofTokens Source.nested.body) = .ok [⟨1, 9, 4⟩, ⟨7, 8, 0⟩] ∧
      (∀ last, Matches Source.nested.body 1 last ↔ last = 9) ∧
      (written (between Source.nested.body 1 9)).length = 4 ∧
      find (Piece.ofTokens halfClosed) = .error ⟨.braceMismatch, 1⟩ ∧
      ∃ first t, LastUnclosed halfClosed first t ∧ t.line = 1 := by
  have hfind : find (Piece.ofTokens Source.nested.body) = .ok [⟨1, 9, 4⟩, ⟨7, 8, 0⟩] := by
    decide +kernel
  have hrefused : find (Piece.ofTokens halfClosed) = .error ⟨.braceMismatch, 1⟩ := by
    decide +kernel
  obtain ⟨_, hblocks, _⟩ := (find_matches_braces Source.nested.body).2.1 _ hfind
  obtain ⟨hmatches, hwidth⟩ := hblocks ⟨1, 9, 4⟩ List.mem_cons_self
  refine ⟨hfind, hmatches, hwidth.symm, hrefused, ?_⟩
  rcases (find_matches_braces halfClosed).2.2 _ hrefused with hscan | ⟨_, first, t, hlast, he⟩
  · exact absurd hscan (by decide)
  · exact ⟨first, t, hlast, (AssemblyError.mk.inj he).2.symm⟩

end Block

end GridBots
