import GridBots.Proofs.Decoding

/-!
# Where control may go

A program transfers control to the words that its labels are bound to, and to those
after its blocks. All of them are words of the program, or the one after its last word
(`targets_within`). The latter happens only if the source ends itself, so that no
instruction is added at its end, and no words come after the label or the block: the
instruction that ends the tick is then in front of the label, or in the block itself
(`targets_after_last_word`).
-/

namespace GridBots

open Block (widthOf)
open Layout (emitted)

namespace Source.Stages

variable {s : Source} {p : Program} (st : s.Stages p)

/-- The label at an index of the body is bound to the word `w`: its name is defined to be
    that word after the labels before it, and then those after it are defined. -/
def Binds (i : Nat) (d name : Token) (w : Word) : Prop :=
  ∃ before after t₁ t₂, st.layout = before ++ .label name.text d.line :: after ∧
    before.slots.length = emitted (s.body.take i) ∧
    Layout.bindLabels 0 st.aliases before = .ok t₁ ∧
    t₁.define name.text (.number w) = .ok t₂ ∧
    Layout.bindLabels before.slots.length t₂ after = .ok st.labels

theorem exists_binds {i : Nat} {d name : Token} (hd : s.body[i]? = some d)
    (hl : d.isLabel = true) (hn : s.body[i + 1]? = some name) :
    ∃ w, st.Binds i d name w ∧ w.toInt = emitted (s.body.take i) := by
  have hp := st.pieces_of_isLabel hd hl hn
  obtain ⟨before, after, t₁, t₂, hs, hlen, h₁, h₂, h₃⟩ := st.exists_bindLabels hp
  have hsize := st.widthOf_le_size hp
  rw [← Layout.emitted_eq_widthOf] at hlen h₂ hsize
  rw [← Layout.emitted_eq_widthOf, ← hlen] at h₃
  exact ⟨_, ⟨before, after, t₁, t₂, hs, hlen, h₁, h₂, h₃⟩,
    toInt_ofNat_of_le_cap (Nat.le_trans hsize st.size_le)⟩

include st in
/-- All words of a program come before a place in its source exactly if those of the source
    do, and no word is added after them. -/
theorem emitted_take_eq_size_iff {i : Nat} {post : List Piece}
    (h : s.pieces = Piece.ofTokens (s.body.take i) ++ post) :
    emitted (s.body.take i) = p.size ↔
      s.EndsItself ∧ emitted (s.body.take i) = emitted s.body := by
  have hle : emitted (s.body.take i) ≤ emitted s.body := by
    rw [Layout.emitted_eq_widthOf, Layout.emitted_eq_widthOf, ← Source.pieces, h,
      Block.widthOf_append]
    exact Nat.le_add_right _ _
  rw [st.size_eq, ← st.isTerminated_iff, ← Layout.emitted_eq_widthOf]
  by_cases ht : st.layout.isTerminated = true
  · rw [if_pos ht, Nat.add_zero]
    exact (and_iff_right ht).symm
  · rw [if_neg ht]
    exact ⟨fun he => by omega, fun he => absurd he.1 ht⟩

end Source.Stages

/-- Labels and the ends of blocks are addresses of words of the program, or the address after
    its last word. The latter is so exactly if the source ends itself and all of its words come
    before the label, or before the brace that closes the block. -/
theorem targets_within {s : Source} {p : Program} (h : s.assemble = .ok p) :
    ∃ st : s.Stages p,
      (∀ i d name, s.body[i]? = some d → d.isLabel = true → s.body[i + 1]? = some name →
        ∃ w, st.Binds i d name w ∧ 0 ≤ w.toInt ∧ w.toInt ≤ p.size ∧
          (w.toInt = p.size ↔ s.EndsItself ∧ emitted (s.body.take i) = emitted s.body)) ∧
      ∀ i t, s.body[i]? = some t → t.text = Token.blockOpen →
        ∃ close w resume, Token.closing? 0 (i + 1) (s.body.drop (i + 1)) = some close ∧
          p.words[emitted (s.body.take i)]? = some w ∧
          emitted (s.body.take i) + 1 + w.toInt = (resume : Nat) ∧ resume ≤ p.size ∧
          (resume = p.size ↔ s.EndsItself ∧ emitted (s.body.take close) = emitted s.body) := by
  obtain ⟨st⟩ := Source.nonempty_stages_iff.1 h
  refine ⟨st, fun i d name hd hl hn => ?_, fun i t hi ht => ?_⟩
  · obtain ⟨w, hb, hw⟩ := st.exists_binds hd hl hn
    have hp := st.pieces_of_isLabel hd hl hn
    have hsize := st.widthOf_le_size hp
    rw [← Layout.emitted_eq_widthOf] at hsize
    refine ⟨w, hb, by omega, by omega, ?_⟩
    rw [hw, Int.ofNat_inj]
    exact st.emitted_take_eq_size_iff hp
  · obtain ⟨close, w, hc, hw, hresume⟩ := st.exists_word_of_blockOpen hi ht
    obtain ⟨_, line, rest, hp⟩ := Block.ofTokens_take_close st.blockFault?_eq_none hi ht hc
    have hsize := st.widthOf_le_size hp
    rw [← Layout.emitted_eq_widthOf] at hsize
    exact ⟨close, w, _, hc, hw, hresume, hsize, st.emitted_take_eq_size_iff hp⟩

/-- A source whose last instruction ends the tick, in a block that is followed by a label. -/
def Source.trailing : Source where
  tokens := #[⟨"JUMP", 1⟩, ⟨"#here", 1⟩, ⟨"IF", 2⟩, ⟨"\x7b", 2⟩, ⟨"END", 2⟩, ⟨"\x7d", 2⟩,
    ⟨"LABEL", 3⟩, ⟨"here", 3⟩]
  lineCount := 3

/-- The program that this source becomes. -/
def Program.trailing : Program where
  cells := [⟨805306374, 1⟩, ⟨5, 1⟩, ⟨805306375, 2⟩, ⟨1, 2⟩, ⟨0, 2⟩]
  variableCount := 0

theorem Source.assemble_trailing : Source.trailing.assemble = .ok Program.trailing := by
  decide +kernel

theorem Source.endsItself_trailing : Source.trailing.EndsItself :=
  ⟨4, ⟨"END", 2⟩, rfl, by decide, rfl⟩

theorem targets_within_trailing :
    Source.trailing.assemble = .ok Program.trailing ∧
      Source.trailing.body[6]? = some ⟨"LABEL", 3⟩ ∧ (⟨"LABEL", 3⟩ : Token).isLabel = true ∧
      Source.trailing.body[7]? = some ⟨"here", 3⟩ ∧
      ∃ st : Source.trailing.Stages Program.trailing,
        (∃ w, st.Binds 6 ⟨"LABEL", 3⟩ ⟨"here", 3⟩ w ∧ w.toInt = 5) ∧
        ∃ close w, Token.closing? 0 4 (Source.trailing.body.drop 4) = some close ∧
          Program.trailing.words[3]? = some w ∧ 3 + 1 + w.toInt = 5 := by
  obtain ⟨st, hlabels, hblocks⟩ := targets_within Source.assemble_trailing
  obtain ⟨w, hb, _, _, hw⟩ := hlabels 6 ⟨"LABEL", 3⟩ ⟨"here", 3⟩ rfl (by decide) rfl
  obtain ⟨close, v, resume, hc, hv, hresume, _, hr⟩ := hblocks 3 ⟨Token.blockOpen, 2⟩ rfl rfl
  have hclose : close = 5 := Option.some.inj (hc.symm.trans (by decide))
  have hr := hr.2 ⟨Source.endsItself_trailing, by rw [hclose]; rfl⟩
  refine ⟨Source.assemble_trailing, rfl, by decide, rfl, st,
    ⟨w, hb, hw.2 ⟨Source.endsItself_trailing, rfl⟩⟩, close, v, hc, hv, hresume.trans ?_⟩
  rw [hr]
  rfl

/-- Not all labels, and not all ends of blocks, are addresses of words of the program: here both
    are the address after the last word, where there is no instruction that ends the tick. -/
theorem targets_after_last_word :
    Source.ofText "JUMP #here\nIF \x7b END \x7d\nLABEL here" = .ok Source.trailing ∧
      Source.trailing.assemble = .ok Program.trailing ∧
      ∃ st : Source.trailing.Stages Program.trailing,
        (∃ w, st.Binds 6 ⟨"LABEL", 3⟩ ⟨"here", 3⟩ w ∧ ¬w.toInt < Program.trailing.size) ∧
        Source.trailing.body[3]? = some ⟨Token.blockOpen, 2⟩ ∧
        ∃ w, Program.trailing.words[emitted (Source.trailing.body.take 3)]? = some w ∧
          ¬emitted (Source.trailing.body.take 3) + 1 + w.toInt < Program.trailing.size := by
  obtain ⟨st⟩ := Source.nonempty_stages_iff.1 Source.assemble_trailing
  have hlabel : (⟨"LABEL", 3⟩ : Token).isLabel = true := by decide
  obtain ⟨w, hb, hw⟩ := st.exists_binds (i := 6) rfl hlabel rfl
  refine ⟨by decide +kernel, Source.assemble_trailing, st, ⟨w, hb, ?_⟩, rfl, 1, rfl, by decide⟩
  rw [hw]
  decide

end GridBots
