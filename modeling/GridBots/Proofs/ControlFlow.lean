import GridBots.Proofs.Instructions
import GridBots.Proofs.Labels
import GridBots.Proofs.Steps

/-!
# Control stays on instructions

A program can be run from any word on, also from the middle of an instruction. But if its
source is regular (`Source.Regular`), it never is: as long as it does not store into its
own words, the machine only goes to where instructions begin, and when it leaves the
program, it does so at its end (`fetches_on_instructions`). It may run forever.

The invariant is that the machine is about to execute the first of some last pieces of
the program that are none in the middle of an instruction (`Source.Boundary`). An
instruction is followed by such pieces; so is a block that is skipped, as the closing
brace after it is one; and so is what comes before a label.
-/

namespace GridBots

open Block (widthOf)
open Machine (Config Context after next? start step stored?)

namespace Source

/-- A source whose program is run by instructions only. -/
structure Regular (s : Source) : Prop where
  /-- All operands, and all blocks, belong to instructions. -/
  spanned : Piece.Spanned s.pieces
  /-- After every conditional instruction, there is a block. -/
  block_of_branch : ∀ i t, s.body[i]? = some t → Opcode.ofMnemonic? t.text = some .branch →
    ∃ o, s.body[i + 1]? = some o ∧ o.text = Token.blockOpen
  /-- The first operand of every jump is immediate, and the name of a label. -/
  label_of_jump : ∀ i t, s.body[i]? = some t → Opcode.ofMnemonic? t.text = some .jump →
    ∃ o k d name, s.body[i + 1]? = some o ∧ o.isImmediate = true ∧ s.body[k]? = some d ∧
      d.isLabel = true ∧ s.body[k + 1]? = some name ∧ name.text = o.operandText

/-- The address is that of the first word of some last pieces, the first of which is none
    in the middle of an instruction. -/
def Boundary (s : Source) (address : Nat) : Prop :=
  ∃ pre post, s.pieces = pre ++ post ∧ widthOf pre = address ∧
    Piece.spannedAfter false post = true

end Source

namespace Program

/-- The first operand of an instruction is immediate: it is the word after the header. -/
theorem InPlace.getD_operands {p : Program} {c : Config} (hm : p.InPlace c.memory) {w v : Word}
    {op : Opcode} {args : List Word}
    (ho : Machine.operands c.memory c.address op (Header.decode w) = .ok args)
    (hi : (Header.decode w).isImmediate 0 = true) (hv : p.words[c.address + 1]? = some v) :
    args.getD 0 0 = v :=
  Machine.getD_operands_of_isImmediate ho hi (hm.read_eq hv)

end Program

namespace Piece

variable {pre post : List Piece} {taken : Bool}

/-! ## Boundaries among pieces -/

theorem spannedAfter_of_append (h : spannedAfter taken (pre ++ post) = true) :
    ∃ taken, spannedAfter taken post = true := by
  induction pre generalizing taken with
  | nil => exact ⟨taken, h⟩
  | cons p pre ih =>
    obtain ⟨item, line⟩ := p
    cases item with
    | operation op => exact ih h
    | operand text immediate => exact ih (Bool.and_eq_true_iff.1 h).2
    | opening => exact ih (Bool.and_eq_true_iff.1 h).2
    | closing => exact ih h
    | label name => exact ih h
    | namelessLabel => exact ih h

/-- After the operands of an instruction, there is a boundary. -/
theorem exists_after_operands (h : spannedAfter true post = true) :
    ∃ mid rest, post = mid ++ rest ∧ widthOf mid = (operandFlags post).length ∧
      spannedAfter false rest = true := by
  induction post with
  | nil => exact ⟨[], [], rfl, rfl, rfl⟩
  | cons p post ih =>
    obtain ⟨item, line⟩ := p
    cases item with
    | operand text immediate =>
      obtain ⟨mid, rest, rfl, hw, hs⟩ := ih h
      refine ⟨_ :: mid, rest, rfl, ?_, hs⟩
      rw [widthOf, hw, Nat.add_comm]
      rfl
    | opening => exact ⟨[_], post, rfl, rfl, h⟩
    | operation op => exact ⟨[], _, rfl, rfl, h⟩
    | closing => exact ⟨[], _, rfl, rfl, h⟩
    | label name => exact ⟨[], _, rfl, rfl, h⟩
    | namelessLabel => exact ⟨[], _, rfl, rfl, h⟩

/-- The first piece from a boundary on that becomes a word is an opcode. -/
theorem exists_operation (h : spannedAfter false post = true) :
    (∃ mid op line rest, post = mid ++ ⟨.operation op, line⟩ :: rest ∧ widthOf mid = 0 ∧
      spannedAfter true rest = true) ∨ widthOf post = 0 := by
  induction post with
  | nil => exact .inr rfl
  | cons p post ih =>
    obtain ⟨item, line⟩ := p
    have hskip : spannedAfter false post = true → item.width = 0 →
        (∃ mid op l rest, ⟨item, line⟩ :: post = mid ++ ⟨.operation op, l⟩ :: rest ∧
          widthOf mid = 0 ∧ spannedAfter true rest = true) ∨
        widthOf (⟨item, line⟩ :: post) = 0 := by
      intro hs hw
      rcases ih hs with ⟨mid, op, l, rest, rfl, hm, hr⟩ | hp
      · exact .inl ⟨⟨item, line⟩ :: mid, op, l, rest, rfl, by rw [widthOf, hm]; exact hw, hr⟩
      · exact .inr (by rw [widthOf, hp]; exact hw)
    cases item with
    | operation op => exact .inl ⟨[], op, line, post, rfl, rfl, h⟩
    | operand text immediate => cases h
    | opening => cases h
    | closing => exact hskip h rfl
    | label name => exact hskip h rfl
    | namelessLabel => exact hskip h rfl

theorem mem_headers {address : Nat} {op : Opcode} {line : Nat} :
    address + widthOf pre ∈ headers address (pre ++ ⟨.operation op, line⟩ :: post) := by
  induction pre generalizing address with
  | nil => exact List.mem_cons_self
  | cons p pre ih =>
    rw [List.cons_append, headers, widthOf, ← Nat.add_assoc]
    split
    · exact List.mem_cons_of_mem _ ih
    · exact ih

end Piece

/-! ## Boundaries of programs -/

namespace Source

variable {s : Source} {p : Program}

/-- The machine begins at a boundary. -/
theorem boundary_zero (hs : Piece.Spanned s.pieces) : s.Boundary 0 :=
  ⟨[], s.pieces, rfl, rfl, Piece.spanned_iff.1 hs⟩

/-- At a boundary is an opcode, or it is the end of what is written. -/
theorem exists_operation_of_boundary {a : Nat} (h : s.Boundary a) :
    (∃ pre op line post, s.pieces = pre ++ ⟨.operation op, line⟩ :: post ∧ widthOf pre = a ∧
      Piece.spannedAfter true post = true) ∨ a = widthOf s.pieces := by
  obtain ⟨pre, post, hp, rfl, hs⟩ := h
  rcases Piece.exists_operation hs with ⟨mid, op, line, rest, rfl, hm, hr⟩ | hw
  · refine .inl ⟨pre ++ mid, op, line, rest, ?_, ?_, hr⟩
    · rw [hp, List.append_assoc]
    · rw [Block.widthOf_append, hm, Nat.add_zero]
  · exact .inr (by rw [hp, Block.widthOf_append, hw, Nat.add_zero])

/-- Pieces that are no operands and open no block are at a boundary. -/
theorem boundary_of_append (hs : Piece.Spanned s.pieces) {pre post : List Piece} {q : Piece}
    (hp : s.pieces = pre ++ q :: post)
    (hq : ∀ taken, Piece.spannedAfter taken (q :: post) = Piece.spannedAfter false (q :: post)) :
    s.Boundary (widthOf pre) := by
  have h := Piece.spanned_iff.1 hs
  rw [hp] at h
  obtain ⟨taken, h⟩ := Piece.spannedAfter_of_append h
  exact ⟨pre, q :: post, hp, rfl, (hq taken).symm.trans h⟩

namespace Stages

variable (st : s.Stages p) {pre post : List Piece} {line : Nat}

include st

/-- A boundary within a program is where one of its instructions begins, and there is only
    one other. -/
theorem exists_instruction_of_boundary (hs : Piece.Spanned s.pieces) {a : Nat}
    (h : s.Boundary a) :
    (a < p.size → ∃ i ∈ p.instructions, i.address = a) ∧ (p.size ≤ a → a = p.size) := by
  have ha := st.addresses_instructions hs
  have hsize := st.size_eq
  rcases exists_operation_of_boundary h with ⟨pre, op, line, post, hp, rfl, _⟩ | rfl
  · obtain ⟨_, w, hw, _⟩ := st.word_of_operation hp
    have hlt := (List.getElem?_eq_some_iff.1 hw).1
    rw [p.length_words] at hlt
    have hmem : widthOf pre ∈ p.instructions.map Instruction.address := by
      rw [ha, hp, ← Nat.zero_add (widthOf pre)]
      exact List.mem_append_left _ Piece.mem_headers
    exact ⟨fun _ => List.mem_map.1 hmem, fun hle => absurd hlt (Nat.not_lt.2 hle)⟩
  · by_cases ht : st.layout.isTerminated = true
    · rw [if_pos ht, Nat.add_zero] at hsize
      exact ⟨fun hlt => absurd hsize (Nat.ne_of_gt hlt), fun _ => hsize.symm⟩
    · rw [if_neg ht] at hsize ha
      have hmem : widthOf s.pieces ∈ p.instructions.map Instruction.address := by
        rw [ha]
        exact List.mem_append_right _ List.mem_cons_self
      exact ⟨fun _ => List.mem_map.1 hmem, fun hle => by omega⟩

/-- The operand of a jump is the address of a boundary. -/
theorem exists_word_of_jump (hr : s.Regular)
    (hp : s.pieces = pre ++ ⟨.operation .jump, line⟩ :: post) :
    ∃ flags a, operandFlags post = true :: flags ∧ s.Boundary a ∧ a ≤ p.size ∧
      p.words[widthOf pre + 1]? = some (Int32.ofNat a) := by
  obtain ⟨i, t, hi, hm, _, _, rfl⟩ := Piece.exists_token_of_operation hp
  obtain ⟨o, k, d, name, ho, himm, hd, hl, hn, hname⟩ := hr.label_of_jump i t hi hm
  have hpost : Piece.ofTokens (s.body.drop (i + 1)) =
      ⟨.operand o.operandText true, o.line⟩ :: Piece.ofTokens (s.body.drop (i + 2)) := by
    obtain ⟨hmo, hoo, hco⟩ := Piece.not_reserved_of_isImmediate himm
    rw [drop_eq_cons ho, Piece.ofTokens_cons (Piece.not_isLabel_of_ofMnemonic?_eq_none hmo),
      Piece.ofToken_operand hmo hoo hco, himm]
  -- The operand stands for the words before one of the labels of that name.
  have hmem : ⟨.label name.text, d.line⟩ ∈ s.pieces := by
    rw [st.pieces_of_isLabel hd hl hn]
    exact List.mem_append_right _ List.mem_cons_self
  obtain ⟨before, l, after, hbefore, hv⟩ := st.exists_value?_of_label hmem
  rw [hpost] at hp ⊢
  have happ : s.pieces = (pre ++ [⟨.operation .jump, line⟩]) ++
      ⟨.operand o.operandText true, o.line⟩ :: Piece.ofTokens (s.body.drop (i + 2)) := by
    rw [hp, List.append_assoc]
    rfl
  have hword := st.word_of_operand happ
  rw [Block.widthOf_append] at hword
  refine ⟨_, widthOf before, rfl, boundary_of_append hr.spanned hbefore fun _ => rfl,
    st.widthOf_le_size hbefore, ?_⟩
  rw [← hv, hname]
  exact hword

/-- The operand of a conditional instruction is the number of words up to a boundary. -/
theorem exists_word_of_branch (hr : s.Regular)
    (hp : s.pieces = pre ++ ⟨.operation .branch, line⟩ :: post) :
    operandFlags post = [true] ∧ ∃ width, s.Boundary (widthOf pre + 2 + width) ∧
      width ≤ p.size ∧ p.words[widthOf pre + 1]? = some (Int32.ofNat width) := by
  obtain ⟨i, t, hi, hm, _, _, rfl⟩ := Piece.exists_token_of_operation hp
  obtain ⟨o, ho, hopen⟩ := hr.block_of_branch i t hi hm
  have hpost : Piece.ofTokens (s.body.drop (i + 1)) =
      ⟨.opening, o.line⟩ :: Piece.ofTokens (s.body.drop (i + 2)) := by
    rw [drop_eq_cons ho, Piece.ofTokens_cons (by rw [Piece.not_isLabel_of_blockOpen hopen]; decide),
      Piece.ofToken_blockOpen hopen]
  rw [hpost] at hp ⊢
  have happ : s.pieces = (pre ++ [⟨.operation .branch, line⟩]) ++
      ⟨.opening, o.line⟩ :: Piece.ofTokens (s.body.drop (i + 2)) := by
    rw [hp, List.append_assoc]
    rfl
  -- The block ends before a brace, which is at a boundary.
  have hf := st.blockFault?_eq_none
  rw [Block.fault?, happ] at hf
  obtain ⟨_, _, hf⟩ := Block.firstFault?_of_append hf
  obtain ⟨l, rest, hclose⟩ := Block.exists_closing (Block.firstFault?_of_opening hf)
    (Nat.zero_lt_succ _)
  have hclosing : s.pieces = (pre ++ ⟨.operation .branch, line⟩ :: ⟨.opening, o.line⟩ ::
      Block.inside 0 (Piece.ofTokens (s.body.drop (i + 2)))) ++ ⟨.closing, l⟩ :: rest := by
    rw [hp, List.append_assoc, List.cons_append, List.cons_append, ← hclose]
  have hwidth := Block.widthOf_append pre (⟨.operation .branch, line⟩ :: ⟨.opening, o.line⟩ ::
      Block.inside 0 (Piece.ofTokens (s.body.drop (i + 2))))
  have hword := st.word_of_opening happ
  rw [Block.widthOf_append] at hword
  have hb := boundary_of_append hr.spanned hclosing fun _ => rfl
  have hle := st.widthOf_le_size hclosing
  simp only [widthOf, Item.width] at hwidth
  refine ⟨rfl, widthOf (Block.inside 0 (Piece.ofTokens (s.body.drop (i + 2)))), ?_, by omega,
    hword⟩
  rwa [hwidth, ← Nat.add_assoc, ← Nat.add_assoc] at hb

/-! ## Steps and runs -/

variable {capacity : Nat} {c c' : Config} {shown : Option Config}

/-- From a boundary within the program, a step leads to a boundary. -/
theorem boundary_of_step (hr : s.Regular) (hm : p.InPlace c.memory) (hlt : c.address < p.size)
    (hb : s.Boundary c.address) (hs : step capacity c = .next c' shown) :
    s.Boundary c'.address := by
  obtain ⟨w, op, args, hw, hop, ho, he⟩ := Machine.exists_execute_of_step hs
  rw [hm _ hlt] at hw
  rw [Machine.executable?_eq_some_iff] at hop
  rcases exists_operation_of_boundary hb with ⟨pre, op', line, post, hp, ha, hspan⟩ | hend
  · obtain ⟨hlen, w', hw', hd⟩ := st.word_of_operation hp
    rw [ha, hw] at hw'
    obtain rfl := Option.some.inj hw'
    rw [hd, Header.opcode_ofFlags] at hop
    obtain rfl := Header.opcode_eq_of_value_eq hop.1
    have hwidth : (Header.decode w).width = (operandFlags post).length + 1 := by
      rw [hd, Header.width_ofFlags hlen]
    have himm : (Header.decode w).isImmediate 0 = (operandFlags post).getD 0 false := by
      rw [hd, Header.isImmediate_ofFlags hlen]
    rcases Machine.address_of_execute he with ⟨_, hnext⟩ | ⟨rfl, hnext⟩ | ⟨rfl, hnext⟩
    · -- The next instruction is after the operands.
      obtain ⟨mid, rest, rfl, hmid, hrest⟩ := Piece.exists_after_operands hspan
      refine ⟨pre ++ ⟨.operation op, line⟩ :: mid, rest, ?_, ?_, hrest⟩
      · rw [hp, List.append_assoc]
        rfl
      · rw [hnext, hwidth, Block.widthOf_append, widthOf, hmid, ha]
        exact congrArg _ (Nat.add_comm _ _)
    · -- A jump leads to a label.
      obtain ⟨flags, a, hflags, hba, hle, hv⟩ := st.exists_word_of_jump hr hp
      rw [ha] at hv
      rw [hflags] at himm
      rw [hm.getD_operands ho himm hv, toInt_ofNat_of_le_cap (Nat.le_trans hle st.size_le)] at hnext
      rwa [← Int.ofNat.inj hnext]
    · -- A block is skipped up to its closing brace.
      obtain ⟨hflags, width, hba, hle, hv⟩ := st.exists_word_of_branch hr hp
      rw [ha] at hv hba
      rw [hflags] at himm hwidth
      rw [hm.getD_operands ho himm hv, toInt_ofNat_of_le_cap (Nat.le_trans hle st.size_le),
        hwidth] at hnext
      have hnext' : c.address + 2 + width = c'.address := by
        rw [List.length_singleton] at hnext
        omega
      rwa [← hnext']
  · -- The instruction that the assembler has added ends the tick.
    have hd := st.drop_words_widthOf
    rw [← hend, drop_eq_cons hw] at hd
    split at hd
    · simp at hd
    · rw [(List.cons.inj hd).1] at hop
      obtain rfl : op = .halt := Header.opcode_eq_of_value_eq hop.1
      cases he

end Stages

end Source

/-- Control stays on instructions. A run of a regular program that does not store into the
    words of the program only goes to addresses where instructions of the program begin,
    until it leaves the program, and then it does so at the end of it. -/
theorem fetches_on_instructions {s : Source} {p : Program} (h : s.assemble = .ok p)
    (hr : s.Regular) (ctx : Context) (m : Memory) (hm : p.InPlace m)
    (n : Nat) (c : Config) (hc : after ctx.capacity n (start ctx m) = some c)
    (hbefore : ∀ k, k < n → ∀ c', after ctx.capacity k (start ctx m) = some c' →
      c'.address < p.size ∧ ∀ a, stored? c' = some a → p.size ≤ a) :
    (c.address < p.size → ∃ i ∈ p.instructions, i.address = c.address) ∧
      (p.size ≤ c.address → c.address = p.size) := by
  obtain ⟨st⟩ := Source.nonempty_stages_iff.1 h
  have hinv : p.InPlace c.memory ∧ s.Boundary c.address := by
    induction n generalizing c with
    | zero =>
      obtain rfl := Option.some.inj hc
      refine ⟨fun a ha => ?_, Source.boundary_zero hr.spanned⟩
      -- Programs are too short to reach the system registers, which are cleared.
      have hcap : a < Program.cap := Nat.lt_of_lt_of_le ha st.size_le
      have hzone : ¬a ∈ Memory.systemZone := fun hz => absurd hcap (Nat.not_lt.2 hz.1)
      rw [start, Memory.read_clearSystem, hm a ha]
      simp only [if_neg hzone, Option.map_id_fun', id]
    | succ n ih =>
      obtain ⟨c₁, h₁, hn⟩ := Option.bind_eq_some_iff.1 hc
      obtain ⟨hplace, hb⟩ := ih c₁ h₁ fun k hk => hbefore k (Nat.lt_succ_of_lt hk)
      obtain ⟨hlt, hstore⟩ := hbefore n (Nat.lt_succ_self n) c₁ h₁
      obtain ⟨shown, hs⟩ := Machine.step_eq_of_next? hn
      refine ⟨fun a ha => ?_, st.boundary_of_step hr hplace hlt hb hs⟩
      rw [Machine.read_of_step hs fun b hb => Nat.lt_of_lt_of_le ha (hstore b hb), hplace a ha]
  exact st.exists_instruction_of_boundary hr.spanned hinv.2

/-- A source that skips a block and begins again, forever. -/
def Source.looping : Source where
  tokens := #[⟨"LABEL", 1⟩, ⟨"a", 1⟩, ⟨"PUSH", 1⟩, ⟨"#0", 1⟩, ⟨"IF", 1⟩, ⟨"\x7b", 1⟩, ⟨"PUSH", 1⟩,
    ⟨"#1", 1⟩, ⟨"\x7d", 1⟩, ⟨"JUMP", 1⟩, ⟨"#a", 1⟩]
  lineCount := 1

/-- The program that the source with the loop becomes. -/
def Program.looping : Program where
  cells := [⟨805306373, 1⟩, ⟨0, 1⟩, ⟨805306375, 1⟩, ⟨2, 1⟩, ⟨805306373, 1⟩, ⟨1, 1⟩,
    ⟨805306374, 1⟩, ⟨0, 1⟩, ⟨0, 2⟩]
  variableCount := 0

theorem Source.regular_looping : Source.looping.Regular where
  spanned := by decide
  block_of_branch := by
    intro i t hi hm
    have hall : ∀ i < Source.looping.body.length, ∀ t ∈ Source.looping.body[i]?,
        Opcode.ofMnemonic? t.text = some .branch →
          (Source.looping.body[i + 1]?.any fun o => o.text = Token.blockOpen) = true := by decide
    have ho := hall i (List.getElem?_eq_some_iff.1 hi).1 t hi hm
    rw [Option.any_eq_true] at ho
    exact ho.imp fun o ho => ⟨ho.1, of_decide_eq_true ho.2⟩
  label_of_jump := by
    intro i t hi hm
    have hall : ∀ i < Source.looping.body.length, ∀ t ∈ Source.looping.body[i]?,
        Opcode.ofMnemonic? t.text = some .jump → i = 9 := by decide
    obtain rfl := hall i (List.getElem?_eq_some_iff.1 hi).1 t hi hm
    exact ⟨⟨"#a", 1⟩, 0, ⟨"LABEL", 1⟩, ⟨"a", 1⟩, rfl, by decide, rfl, by decide, rfl, by decide⟩

theorem fetches_on_instructions_looping :
    Source.looping.assemble = .ok Program.looping ∧ Source.looping.Regular ∧
      Program.looping.InPlace (Memory.ofCode Program.looping.words) ∧
      ∃ c, after 256 5 (start (Context.new 256) (Memory.ofCode Program.looping.words)) = some c ∧
        c.address = 6 ∧ ∃ i ∈ Program.looping.instructions, i.address = c.address := by
  have hassemble : Source.looping.assemble = .ok Program.looping := by decide +kernel
  have hplace : Program.looping.InPlace (Memory.ofCode Program.looping.words) :=
    (Program.loaded_ofCode (by decide)).inPlace
  have hruns : ((after 256 5 (start (Context.new 256)
      (Memory.ofCode Program.looping.words))).any fun c => c.address = 6) = true := by
    decide +kernel
  have hbefore : ∀ k < 5, ((after 256 k (start (Context.new 256)
      (Memory.ofCode Program.looping.words))).all fun c =>
        c.address < 9 ∧ stored? c = none) = true := by
    decide +kernel
  obtain ⟨c, hc, haddress⟩ := (Option.any_eq_true _ _).1 hruns
  refine ⟨hassemble, Source.regular_looping, hplace, c, hc, of_decide_eq_true haddress, ?_⟩
  refine (fetches_on_instructions hassemble Source.regular_looping (Context.new 256) _ hplace 5 c hc
    fun k hk c' hc' => ?_).1 ?_
  · obtain ⟨hlt, hnone⟩ := of_decide_eq_true ((Option.all_eq_true _ _).1 (hbefore k hk) c' hc')
    exact ⟨hlt, fun a ha => by rw [hnone] at ha; simp at ha⟩
  · rw [of_decide_eq_true haddress]
    decide

end GridBots
