import GridBots.Proofs.Addresses
import GridBots.Proofs.Headers

/-!
# Where instructions begin

The words of a program are read as instructions one after the other, each telling by
its header how many of the words after it are its operands (`Program.instructions`).
If a program has no words that are no instruction's (`Piece.Spanned`), the
instructions that are read are those that were written: they begin at the words that
the opcodes have become (`Source.Stages.addresses_instructions`), and then there may be
the one that the assembler has added.

Whether all words belong to instructions is found by going through the pieces once
(`Piece.spanned_iff`). In a program of which that is so, a piece that is neither an
operand nor a brace begins a new instruction or becomes no word, which is what the proof
goes by.
-/

namespace GridBots

/-- Whether an item is an operand. -/
def Item.isOperand : Item → Bool
  | operand _ _ => true
  | _ => false

/-- Whether an item is an opcode. -/
def Item.isOperation : Item → Bool
  | operation _ => true
  | _ => false

/-- Whether an item may be one of the operands of an instruction: it is an operand or
    opens a block. -/
def Item.isArgument : Item → Bool
  | operand _ _ => true
  | opening => true
  | _ => false

namespace Piece

/-- The last of the pieces are an opcode and operands of it, so that what comes next may
    be an operand too. -/
def EndsOpen (pieces : List Piece) : Prop :=
  ∃ before op line operands, pieces = before ++ ⟨.operation op, line⟩ :: operands ∧
    ∀ q ∈ operands, q.item.isOperand = true

/-- Every operand, and every brace that opens a block, belongs to an instruction: before
    it are an opcode and other operands of it. -/
def Spanned (pieces : List Piece) : Prop :=
  ∀ pre p post, pieces = pre ++ p :: post → p.item.isArgument = true → EndsOpen pre

/-- Whether the operands among pieces belong to instructions, where `taken` tells whether
    an operand that comes first would. -/
def spannedAfter (taken : Bool) : List Piece → Bool
  | [] => true
  | p :: rest =>
    match p.item with
    | .operation _ => spannedAfter true rest
    | .operand _ _ => taken && spannedAfter true rest
    | .opening => taken && spannedAfter false rest
    | _ => spannedAfter false rest

/-! ## Pieces that belong to instructions -/

variable {pre post : List Piece} {p : Piece}

theorem not_endsOpen_nil : ¬EndsOpen [] := by
  rintro ⟨before, op, line, operands, h, _⟩
  exact List.cons_ne_nil _ _ (List.append_eq_nil_iff.1 h.symm).2

theorem endsOpen_append_operation (op : Opcode) (line : Nat) :
    EndsOpen (pre ++ [⟨.operation op, line⟩]) :=
  ⟨pre, op, line, [], rfl, fun _ h => absurd h List.not_mem_nil⟩

/-- What comes after pieces that end with an instruction: a new opcode or one more operand. -/
theorem endsOpen_append_singleton {item : Item} {line : Nat} (hp : item.isOperation = false) :
    EndsOpen (pre ++ [⟨item, line⟩]) ↔ item.isOperand = true ∧ EndsOpen pre := by
  constructor
  · rintro ⟨before, op, _, operands, h, ho⟩
    rcases List.eq_nil_or_concat operands with rfl | ⟨operands, q, rfl⟩
    · obtain ⟨_, hq⟩ := List.append_inj' h rfl
      have hi := congrArg (Item.isOperation ∘ Piece.item) (List.cons.inj hq).1
      exact absurd (hp.symm.trans hi) Bool.false_ne_true
    · rw [List.concat_eq_append] at h ho
      rw [← List.cons_append, ← List.append_assoc] at h
      obtain ⟨rfl, hq⟩ := List.append_inj' h rfl
      obtain rfl := (List.cons.inj hq).1
      exact ⟨ho _ (List.mem_append_right _ List.mem_cons_self),
        before, op, _, operands, rfl, fun q hq => ho q (List.mem_append_left _ hq)⟩
  · rintro ⟨hi, before, op, _, operands, rfl, ho⟩
    refine ⟨before, op, _, operands ++ [_], by rw [List.append_assoc]; rfl, fun q hq => ?_⟩
    rcases List.mem_append.1 hq with hq | hq
    · exact ho q hq
    · rwa [List.mem_singleton.1 hq]

theorem not_endsOpen_append_singleton {item : Item} {line : Nat} (ho : item.isOperand = false)
    (hp : item.isOperation = false) : ¬EndsOpen (pre ++ [⟨item, line⟩]) := by
  rw [endsOpen_append_singleton hp, ho]
  exact fun h => Bool.false_ne_true h.1

theorem forall_split_cons {motive : List Piece → Prop} :
    (∀ mid q rest, p :: post = mid ++ q :: rest → q.item.isArgument = true → motive (pre ++ mid)) ↔
      (p.item.isArgument = true → motive pre) ∧
        ∀ mid q rest, post = mid ++ q :: rest → q.item.isArgument = true →
          motive (pre ++ [p] ++ mid) := by
  constructor
  · intro h
    refine ⟨fun hp => ?_, fun mid q rest hm hq => ?_⟩
    · have hnil := h [] p post rfl hp
      rwa [List.append_nil] at hnil
    · rw [List.append_assoc]
      exact h (p :: mid) q rest (congrArg _ hm) hq
  · rintro ⟨hp, h⟩ mid q rest hm hq
    cases mid with
    | nil =>
      obtain ⟨rfl, rfl⟩ := List.cons.inj hm
      rw [List.append_nil]
      exact hp hq
    | cons p' mid =>
      obtain ⟨rfl, rfl⟩ := List.cons.inj hm
      have happ := h mid q rest rfl hq
      rwa [List.append_assoc] at happ

theorem spannedAfter_iff {taken : Bool} (h : taken = true ↔ EndsOpen pre) :
    spannedAfter taken post = true ↔
      ∀ mid q rest, post = mid ++ q :: rest → q.item.isArgument = true → EndsOpen (pre ++ mid) := by
  induction post generalizing pre taken with
  | nil => exact ⟨fun _ _ _ _ hm => absurd hm.symm (by simp), fun _ => rfl⟩
  | cons p post ih =>
    rw [forall_split_cons]
    obtain ⟨item, line⟩ := p
    -- Whether the next piece may be an operand depends on this one.
    cases item with
    | operation op =>
      rw [← ih (iff_of_true rfl (endsOpen_append_operation op line))]
      exact ⟨fun hs => ⟨fun hi => absurd hi Bool.false_ne_true, hs⟩, fun hs => hs.2⟩
    | operand text immediate =>
      have h' : taken = true ↔ EndsOpen (pre ++ [⟨.operand text immediate, line⟩]) :=
        h.trans ⟨fun he => (endsOpen_append_singleton rfl).2 ⟨rfl, he⟩,
          fun he => ((endsOpen_append_singleton rfl).1 he).2⟩
      rw [spannedAfter, Bool.and_eq_true, ← h, ← ih h']
      refine ⟨fun ⟨ht, hs⟩ => ⟨fun _ => ht, ht ▸ hs⟩, fun ⟨ht, hs⟩ => ⟨ht rfl, ?_⟩⟩
      rwa [ht rfl] at hs
    | opening =>
      rw [spannedAfter, Bool.and_eq_true, ← h, ← ih (iff_of_false Bool.false_ne_true
        (not_endsOpen_append_singleton rfl rfl))]
      exact ⟨fun hs => ⟨fun _ => hs.1, hs.2⟩, fun hs => ⟨hs.1 rfl, hs.2⟩⟩
    | closing | label name | namelessLabel =>
      rw [← ih (iff_of_false Bool.false_ne_true
        (not_endsOpen_append_singleton rfl rfl))]
      exact ⟨fun hs => ⟨fun hi => absurd hi Bool.false_ne_true, hs⟩, fun hs => hs.2⟩

/-- Whether all operands belong to instructions is found by going through the pieces once. -/
theorem spanned_iff {pieces : List Piece} :
    Spanned pieces ↔ spannedAfter false pieces = true :=
  (spannedAfter_iff (iff_of_false Bool.false_ne_true not_endsOpen_nil)).symm

instance (pieces : List Piece) : Decidable (Spanned pieces) :=
  decidable_of_iff _ spanned_iff.symm

/-- The addresses of the words that the opcodes among pieces become, where the word of
    the first piece has the given address. -/
def headers (address : Nat) : List Piece → List Nat
  | [] => []
  | p :: rest =>
    if p.item.isOperation then address :: headers (address + p.item.width) rest
    else headers (address + p.item.width) rest

end Piece

/-! ## Instructions among words -/

namespace Instruction

/-- An instruction that is read from words is made of the word at its address, and the
    words after that. -/
theorem eq_read_of_mem_ofWords {words rest : List Word} {address pending : Nat} {i : Instruction}
    (hr : words.drop address = rest) (hi : i ∈ ofWords address pending rest) :
    ∃ w, words[i.address]? = some w ∧ i = read i.address w (words.drop (i.address + 1)) := by
  induction rest generalizing address pending with
  | nil =>
    cases pending with
    | zero => exact absurd hi List.not_mem_nil
    | succ _ => exact absurd hi List.not_mem_nil
  | cons w rest ih =>
    have hr' : words.drop (address + 1) = rest := by rw [← List.drop_drop, hr]; rfl
    have hw : words[address]? = some w := by
      rw [← Nat.add_zero address, ← List.getElem?_drop, hr]
      rfl
    cases pending with
    | succ pending => exact ih hr' hi
    | zero =>
      rw [ofWords] at hi
      rcases List.mem_cons.1 hi with rfl | hi
      · exact ⟨w, hw, by rw [← hr']; rfl⟩
      · exact ih hr' hi

theorem eq_read_of_mem_instructions {p : Program} {i : Instruction} (hi : i ∈ p.instructions) :
    ∃ w, p.words[i.address]? = some w ∧
      i = read i.address w (p.words.drop (i.address + 1)) :=
  eq_read_of_mem_ofWords List.drop_zero hi

end Instruction

namespace Program

/-- The words of a program are in place in a memory. -/
def InPlace (p : Program) (m : Memory) : Prop :=
  ∀ a, a < p.size → m.read a = p.words[a]?

theorem InPlace.read_eq {p : Program} {m : Memory} (h : p.InPlace m) {a : Nat} {w : Word}
    (hw : p.words[a]? = some w) : m.read a = some w := by
  have hlt := (List.getElem?_eq_some_iff.1 hw).1
  rw [p.length_words] at hlt
  rw [h a hlt, hw]

/-- The words of a program are in place in a memory, with a zero after them. -/
def Loaded (p : Program) (m : Memory) : Prop :=
  ∀ a, a ≤ p.size → m.read a = some (p.words[a]?.getD 0)

instance (p : Program) (m : Memory) : Decidable (p.Loaded m) :=
  inferInstanceAs (Decidable (∀ a, a ≤ p.size → m.read a = some (p.words[a]?.getD 0)))

theorem Loaded.inPlace {p : Program} {m : Memory} (h : p.Loaded m) : p.InPlace m := by
  intro a ha
  rw [h a (Nat.le_of_lt ha), List.getElem?_eq_getElem (by rwa [p.length_words])]
  rfl

/-- A program is in place in a memory that holds nothing else. -/
theorem loaded_ofCode {p : Program} (h : p.size < Memory.size) :
    p.Loaded (Memory.ofCode p.words) := by
  intro a ha
  have hwords : p.words.length ≤ Memory.size := by
    rw [p.length_words]
    exact Nat.le_of_lt h
  exact Memory.read_ofCode hwords (Nat.lt_of_le_of_lt ha h)

end Program

namespace Source.Stages

open Block (widthOf)

variable {s : Source} {p : Program} (st : s.Stages p)

include st

/-- The word of an opcode tells the number of its operands. -/
theorem word_of_operation {pre post : List Piece} {op : Opcode} {line : Nat}
    (h : s.pieces = pre ++ ⟨.operation op, line⟩ :: post) :
    (operandFlags post).length ≤ Header.maxOperands ∧
      ∃ w, p.words[widthOf pre]? = some w ∧
        Header.decode w = Header.ofFlags op (operandFlags post) := by
  have hf := st.layoutFault?_eq_none
  rw [Layout.fault?, h] at hf
  have hl := Layout.length_operandFlags_le hf
  have hs := Layout.getElem?_slots_operation pre post line op
  rw [← h, st.layout_eq] at hs
  exact ⟨hl, _, st.getElem?_words_of_layout hs, Header.decode_encode_ofFlags hl⟩

/-- A piece that becomes a word has one. -/
theorem exists_word {pre post : List Piece} {q : Piece} (h : s.pieces = pre ++ q :: post)
    (hq : q.item.width = 1) : ∃ w, p.words[widthOf pre]? = some w := by
  have hlt : widthOf pre < p.words.length := by
    rw [p.length_words, st.size_eq, h, Block.widthOf_append, widthOf, hq]
    omega
  exact ⟨_, List.getElem?_eq_getElem hlt⟩

/-- After the words of the pieces, there is only the instruction that the assembler may
    have added. -/
theorem drop_words_widthOf : p.words.drop (widthOf s.pieces) =
    if st.layout.isTerminated then [] else [(Header.new .halt).encode] := by
  have hl : p.words.length = widthOf s.pieces + if st.layout.isTerminated then 0 else 1 := by
    rw [p.length_words, st.size_eq]
  split
  · next ht =>
    rw [if_pos ht] at hl
    exact List.drop_eq_nil_of_le (Nat.le_of_eq hl)
  · next ht =>
    rw [if_neg ht] at hl
    have hs : st.finished.slots[widthOf s.pieces]? =
        some (.instruction (Header.new .halt), st.layout.endLine s.lineCount) := by
      rw [st.slots_finished, if_neg ht, ← st.length_slots_layout, List.getElem?_concat_length]
    rw [drop_eq_cons (st.getElem?_words hs), List.drop_eq_nil_of_le (Nat.le_of_eq hl)]

/-- Instructions begin where opcodes are written, as long as all operands belong to
    instructions. -/
theorem addresses_ofWords {pre post : List Piece} {taken : Bool}
    (h : s.pieces = pre ++ post) (hs : Piece.spannedAfter taken post = true) :
    (Instruction.ofWords (widthOf pre) (if taken then (operandFlags post).length else 0)
        (p.words.drop (widthOf pre))).map Instruction.address =
      Piece.headers (widthOf pre) post ++
        if st.layout.isTerminated then [] else [widthOf s.pieces] := by
  induction post generalizing pre taken with
  | nil =>
    rw [List.append_nil] at h
    rw [operandFlags, List.length_nil, ite_self, ← h, st.drop_words_widthOf]
    split <;> rfl
  | cons q post ih =>
    obtain ⟨item, line⟩ := q
    have happ : s.pieces = (pre ++ [⟨item, line⟩]) ++ post := by rw [h, List.append_assoc]; rfl
    have hw : widthOf (pre ++ [⟨item, line⟩]) = widthOf pre + item.width := Block.widthOf_append _ _
    -- After an opcode, as many words are operands as there are flags; after anything but an
    -- opcode or an operand, none are.
    cases item with
    | operation op =>
      obtain ⟨hl, w, hr, hd⟩ := st.word_of_operation h
      have hs : Piece.spannedAfter true post = true := hs
      have ih := ih happ hs
      rw [hw] at ih
      rw [operandFlags, List.length_nil, ite_self, drop_eq_cons hr, Instruction.ofWords,
        List.map_cons, hd, Header.operandCount_ofFlags hl]
      exact congrArg (_ :: ·) ih
    | operand text immediate | opening =>
      obtain ⟨rfl, hs⟩ := Bool.and_eq_true_iff.1 hs
      obtain ⟨w, hr⟩ := st.exists_word h rfl
      have ih := ih happ hs
      rw [hw] at ih
      rw [drop_eq_cons hr]
      exact ih
    | closing | label name | namelessLabel =>
      have hs : Piece.spannedAfter false post = true := hs
      have ih := ih happ hs
      rw [hw] at ih
      rw [operandFlags, List.length_nil, ite_self]
      exact ih

/-- The instructions of a program begin where its opcodes are written, and at the
    instruction that the assembler may have added. -/
theorem addresses_instructions (hs : Piece.Spanned s.pieces) :
    p.instructions.map Instruction.address =
      Piece.headers 0 s.pieces ++ if st.layout.isTerminated then [] else [widthOf s.pieces] :=
  st.addresses_ofWords (List.nil_append _).symm (Piece.spanned_iff.1 hs)

end Source.Stages

end GridBots
