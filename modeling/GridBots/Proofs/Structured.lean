import GridBots.Proofs.Instructions
import GridBots.Proofs.Reading
import GridBots.Proofs.Steps

/-!
# Structured code

*Structured code* is a program without jumps: instructions one after the other, some of
which are executed on a condition only (`Code`). It can be evaluated as it is written,
without an address to go to next (`Code.evaluate`). Where the instructions stand among
the words of a program is still known, as errors tell it, and as an operand is the word
that it has become.

Code may change the words of its own program, and then go on or not. The evaluation is
told by `intact` of which memories it may go on with; it stops when an instruction leaves
another one behind. If it may go on with all of them, this never happens
(`Code.evaluate_eq_of_isModified`).

* `Code.Written`: code is written as a sequence of pieces;
* `Code.At`: code stands among words from an address on, with nothing to be seen of it
  but the headers of its instructions and the widths of its blocks;
* `Source.Stages.at_of_written`: what is written as pieces of a source stands among the
  words of its program.
-/

namespace GridBots

open Block (widthOf)
open Machine (Config Step seen)

namespace Code

/-- A text that is an operand and nothing else, and is not marked as immediate. -/
def IsUnmarked (text : String) : Prop :=
  text.toList.head? ≠ some Token.immediateMarker ∧ Opcode.ofMnemonic? text = none ∧
    text ≠ Token.blockOpen ∧ text ≠ Token.blockClose

instance (text : String) : Decidable (IsUnmarked text) :=
  inferInstanceAs (Decidable (_ ∧ _ ∧ _ ∧ _))

/-- An operand of an instruction: a number or a name, which may be marked as immediate. -/
structure Argument where
  name : String
  immediate : Bool
  isUnmarked : IsUnmarked name := by decide

/-- The token that an operand is written as. -/
def Argument.text (a : Argument) : String :=
  if a.immediate then String.ofList (Token.immediateMarker :: a.name.toList) else a.name

/-- The item that an operand is. -/
def Argument.item (a : Argument) : Item :=
  .operand a.name a.immediate

/-- An instruction that is followed by the one after it: no jump, and not a conditional one. -/
structure Command where
  mnemonic : String
  op : Opcode
  arguments : List Argument
  ofMnemonic?_eq : Opcode.ofMnemonic? mnemonic = some op := by decide
  op_ne : op ≠ .label ∧ op ≠ .jump ∧ op ≠ .branch := by decide
  length_le : arguments.length ≤ Header.maxOperands := by decide

/-- For each operand, whether it is immediate. -/
def Command.flags (i : Command) : List Bool :=
  i.arguments.map Argument.immediate

theorem Command.length_flags (i : Command) : i.flags.length = i.arguments.length :=
  List.length_map _

theorem Command.length_flags_le (i : Command) : i.flags.length ≤ Header.maxOperands := by
  rw [i.length_flags]
  exact i.length_le

/-- A spelling of the opcode that makes a block conditional. -/
abbrev Keyword := { text : String // Opcode.ofMnemonic? text = some .branch }

end Code

/-- Instructions one after the other, some of them in blocks that are executed on a
    condition. -/
inductive Code
  | done
  | command (i : Code.Command) (rest : Code)
  | conditional (keyword : Code.Keyword) (body rest : Code)

namespace Code

/-- The tokens that code is written as. -/
def texts : Code → List String
  | done => []
  | command i rest => i.mnemonic :: (i.arguments.map Argument.text ++ rest.texts)
  | conditional keyword body rest =>
    keyword.val :: Token.blockOpen :: (body.texts ++ Token.blockClose :: rest.texts)

/-- The number of words that code becomes. -/
def width : Code → Nat
  | done => 0
  | command i rest => 1 + i.arguments.length + rest.width
  | conditional _ body rest => 2 + body.width + rest.width

/-! ## Evaluation -/

/-- What an operand means that has become the word `w`, for an instruction at an address. -/
def Argument.value (a : Argument) (m : Memory) (address : Nat) (op : Opcode) (w : Word) :
    Except ExecutionError Word :=
  if a.immediate then .ok w
  else match m.fetch? w with
    | none => .error (.outOfBounds address op w)
    | some v => .ok v

/-- What operands mean that have become words, one after the other. -/
def values (m : Memory) (address : Nat) (op : Opcode) :
    List Argument → List Word → Except ExecutionError (List Word)
  | a :: arguments, w :: words => do
    let v ← a.value m address op w
    let vs ← values m address op arguments words
    .ok (v :: vs)
  | _, _ => .ok []

/-- Reads the operands of an instruction, whatever it does with them, and lets it act. -/
def Command.act (i : Command) (capacity : Nat) (words : List Word) (c : Config) : Step :=
  match values c.memory c.address i.op i.arguments (words.drop (c.address + 1)) with
  | .error e => .failed e c
  | .ok args => Machine.execute capacity i.op (Header.ofFlags i.op i.flags) args c

/-- What the evaluation of code comes to. -/
inductive Outcome (σ : Type)
  /-- All of it has been executed. -/
  | done (c : Config) (watcher : σ)
  /-- An instruction has ended the tick. -/
  | ended (c : Config) (watcher : σ)
  /-- An instruction cannot be executed. -/
  | failed (e : ExecutionError) (c : Config) (watcher : σ)
  /-- An instruction has left a memory that the evaluation may not go on with. -/
  | modified (c : Config) (watcher : σ)

section Evaluation

variable {σ : Type} (capacity : Nat) (watch : Config → σ → σ) (words : List Word)
  (intact : Memory → Bool)

/-- What a single instruction comes to. -/
def Outcome.ofStep (watcher : σ) : Step → Outcome σ
  | .ended c => .ended c watcher
  | .failed e c => .failed e c watcher
  | .next c shown =>
    if intact c.memory then .done c (seen watch watcher shown)
    else .modified c (seen watch watcher shown)

/-- Goes on where all has been executed. -/
def Outcome.andThen (o : Outcome σ) (next : Config → σ → Outcome σ) : Outcome σ :=
  match o with
  | .done c watcher => next c watcher
  | .ended c watcher => .ended c watcher
  | .failed e c watcher => .failed e c watcher
  | .modified c watcher => .modified c watcher

/-- Evaluates code in the order in which it is written, as long as it leaves memories that
    are `intact`. The code has become `words`, and the address in the state says where. -/
def evaluate : Code → Config → σ → Outcome σ
  | done, c, watcher => .done c watcher
  | command i rest, c, watcher =>
    (Outcome.ofStep watch intact watcher (i.act capacity words c)).andThen rest.evaluate
  | conditional _ body rest, c, watcher =>
    match c.stack with
    | [] => .failed (.stackUnderflow c.address .branch) c watcher
    | w :: stack =>
      let outcome :=
        if w ≠ 0 then body.evaluate ⟨c.memory, stack, c.address + 2⟩ watcher
        else .done ⟨c.memory, stack, c.address + 2 + body.width⟩ watcher
      outcome.andThen rest.evaluate

/-! ### Evaluation with and without regard to memory -/

/-- Whether the evaluation has stopped at a memory. -/
def Outcome.isModified : Outcome σ → Bool
  | .modified _ _ => true
  | _ => false

variable {capacity watch words intact}

/-- Evaluations that have not stopped at a memory are the same if their parts are. -/
theorem Outcome.andThen_congr {o o' : Outcome σ} {next next' : Config → σ → Outcome σ}
    (h : (o.andThen next).isModified = false) (ho : o.isModified = false → o' = o)
    (hnext : ∀ c watcher, (next c watcher).isModified = false → next' c watcher = next c watcher) :
    o'.andThen next' = o.andThen next := by
  cases o with
  | done c watcher =>
    rw [ho rfl]
    exact hnext c watcher h
  | ended c watcher => rw [ho rfl]; rfl
  | failed e c watcher => rw [ho rfl]; rfl
  | modified c watcher => cases h

theorem Outcome.ofStep_eq_of_isModified {watcher : σ} {s : Step}
    (h : (ofStep watch intact watcher s).isModified = false) :
    ofStep watch (fun _ => true) watcher s = ofStep watch intact watcher s := by
  cases s with
  | ended c => rfl
  | failed e c => rfl
  | next c shown =>
    rw [ofStep] at h
    rw [ofStep, ofStep]
    by_cases hi : intact c.memory = true
    · rw [if_pos hi]
      rfl
    · rw [if_neg hi] at h
      cases h

/-- If the evaluation has not stopped at a memory, it does not matter at which memories it
    may stop. -/
theorem evaluate_eq_of_isModified {code : Code} {c : Config} {watcher : σ}
    (h : (code.evaluate capacity watch words intact c watcher).isModified = false) :
    code.evaluate capacity watch words (fun _ => true) c watcher =
      code.evaluate capacity watch words intact c watcher := by
  induction code generalizing c watcher with
  | done => rfl
  | command i rest ih =>
    exact Outcome.andThen_congr h Outcome.ofStep_eq_of_isModified fun _ _ => ih
  | conditional keyword body rest ihbody ihrest =>
    rw [evaluate] at h ⊢
    rw [evaluate]
    cases hs : c.stack with
    | nil => rfl
    | cons w stack =>
      rw [hs] at h
      refine Outcome.andThen_congr h (fun ho => ?_) fun _ _ => ihrest
      -- If the block is skipped, the evaluation does not stop in it.
      by_cases hw : w ≠ 0
      · rw [if_pos hw] at ho ⊢
        rw [if_pos hw]
        exact ihbody ho
      · rw [if_neg hw, if_neg hw]

/-- The run that an evaluation stands for, unless it has stopped at a memory. -/
def Outcome.run? : Outcome σ → Option (Machine.Run σ)
  | .done c watcher => some ⟨none, c, watcher⟩
  | .ended c watcher => some ⟨none, c, watcher⟩
  | .failed e c watcher => some ⟨some e, c, watcher⟩
  | .modified _ _ => none

end Evaluation

/-! ## Code among pieces -/

/-- Code is written as pieces. -/
inductive Written : Code → List Piece → Prop
  | done : Written .done []
  | command {i rest line operands pieces} :
      operands.map Piece.item = i.arguments.map Argument.item → Written rest pieces →
        Written (.command i rest) (⟨.operation i.op, line⟩ :: (operands ++ pieces))
  | conditional {keyword body rest line opening closing inner pieces} :
      Written body inner → Written rest pieces →
        Written (.conditional keyword body rest) (⟨.operation .branch, line⟩ ::
          ⟨.opening, opening⟩ :: (inner ++ ⟨.closing, closing⟩ :: pieces))

variable {code : Code} {pieces post : List Piece} {arguments : List Argument}

theorem widthOf_of_arguments {operands : List Piece}
    (h : operands.map Piece.item = arguments.map Argument.item) :
    widthOf operands = arguments.length := by
  induction arguments generalizing operands with
  | nil => rw [List.map_eq_nil_iff.1 h]; rfl
  | cons a arguments ih =>
    obtain ⟨q, operands, rfl, hq, h⟩ := List.map_eq_cons_iff.1 h
    rw [widthOf, hq, ih h, List.length_cons, Nat.add_comm]
    rfl

theorem operandFlags_of_arguments {operands : List Piece}
    (h : operands.map Piece.item = arguments.map Argument.item) (hpost : operandFlags post = []) :
    operandFlags (operands ++ post) = arguments.map Argument.immediate := by
  induction arguments generalizing operands with
  | nil => rw [List.map_eq_nil_iff.1 h]; exact hpost
  | cons a arguments ih =>
    obtain ⟨q, operands, rfl, hq, h⟩ := List.map_eq_cons_iff.1 h
    rw [List.cons_append, operandFlags, hq, List.map_cons, ← ih h]
    rfl

theorem inside_of_arguments {operands : List Piece} (depth : Nat)
    (h : operands.map Piece.item = arguments.map Argument.item) :
    Block.inside depth (operands ++ post) = operands ++ Block.inside depth post := by
  induction arguments generalizing operands with
  | nil => rw [List.map_eq_nil_iff.1 h]; rfl
  | cons a arguments ih =>
    obtain ⟨⟨item, line⟩, operands, rfl, rfl, htail⟩ := List.map_eq_cons_iff.1 h
    exact congrArg _ (ih htail)

namespace Written

theorem widthOf_eq (h : Written code pieces) : widthOf pieces = code.width := by
  induction h with
  | done => rfl
  | command hoperands _ ih =>
    rw [widthOf, Block.widthOf_append, widthOf_of_arguments hoperands, ih, width, Nat.add_assoc]
    rfl
  | conditional _ _ ihbody ihrest =>
    rw [widthOf, widthOf, Block.widthOf_append, widthOf, ihbody, ihrest, width]
    simp only [Item.width]
    omega

/-- Pieces that code is written as are no operands of an instruction before. -/
theorem operandFlags_eq_nil (h : Written code pieces) (hpost : operandFlags post = []) :
    operandFlags (pieces ++ post) = [] := by
  cases h with
  | done => exact hpost
  | command _ _ => rfl
  | conditional _ _ => rfl

/-- Code closes the blocks that it opens, and no others. -/
theorem inside_eq (h : Written code pieces) (depth : Nat) :
    Block.inside depth (pieces ++ post) = pieces ++ Block.inside depth post := by
  induction h generalizing depth post with
  | done => rfl
  | @command i rest line operands pieces hoperands _ ih =>
    have hrest : Block.inside depth (operands ++ (pieces ++ post)) =
        operands ++ (pieces ++ Block.inside depth post) := by
      rw [inside_of_arguments depth hoperands, ih]
    rw [List.cons_append, List.cons_append, List.append_assoc, List.append_assoc, ← hrest]
    rfl
  | @conditional keyword body rest line opening closing inner pieces _ _ ihbody ihrest =>
    have hclosing : Block.inside (depth + 1) (⟨.closing, closing⟩ :: (pieces ++ post)) =
        ⟨.closing, closing⟩ :: (pieces ++ Block.inside depth post) := by
      rw [← ihrest]
      rfl
    have hinner : Block.inside (depth + 1) (inner ++ ⟨.closing, closing⟩ :: (pieces ++ post)) =
        inner ++ ⟨.closing, closing⟩ :: (pieces ++ Block.inside depth post) := by
      rw [ihbody, hclosing]
    simp only [List.cons_append, List.append_assoc]
    rw [← hinner]
    rfl

end Written

/-! ### Code among tokens -/

/-- An operand is a piece of its own. -/
theorem ofToken_of_argument {a : Argument} {t : Token} (h : t.text = a.text) :
    (Piece.ofToken t).item = a.item ∧ ¬t.isLabel = true := by
  obtain ⟨name, immediate, hhead, hm, ho, hc⟩ := a
  cases immediate with
  | true =>
    have htext : t.text.toList = Token.immediateMarker :: name.toList := by
      rw [h, Argument.text, if_pos rfl, String.toList_ofList]
    have himm : t.isImmediate = true := by
      rw [Token.isImmediate, htext]
      exact decide_eq_true rfl
    obtain ⟨hmt, hot, hct⟩ := Piece.not_reserved_of_isImmediate himm
    refine ⟨?_, Piece.not_isLabel_of_ofMnemonic?_eq_none hmt⟩
    rw [Piece.ofToken_operand hmt hot hct, himm, Token.operandText, if_pos himm, htext,
      List.tail_cons, String.ofList_toList]
    rfl
  | false =>
    have htext : t.text = name := h.trans (if_neg Bool.false_ne_true)
    have himm : t.isImmediate = false := by
      rw [Token.isImmediate, htext]
      exact decide_eq_false hhead
    have hmt : Opcode.ofMnemonic? t.text = none := by rw [htext, hm]
    refine ⟨?_, Piece.not_isLabel_of_ofMnemonic?_eq_none hmt⟩
    rw [Piece.ofToken_operand hmt (htext ▸ ho) (htext ▸ hc), himm, Token.operandText, himm,
      if_neg Bool.false_ne_true, htext]
    rfl

theorem ofTokens_of_arguments {operands : List Token}
    (h : operands.map Token.text = arguments.map Argument.text) :
    (∀ t ∈ operands, ¬t.isLabel = true) ∧
      (operands.map Piece.ofToken).map Piece.item = arguments.map Argument.item := by
  induction arguments generalizing operands with
  | nil =>
    rw [List.map_eq_nil_iff.1 h]
    exact ⟨fun _ ht => absurd ht List.not_mem_nil, rfl⟩
  | cons a arguments ih =>
    obtain ⟨t, operands, rfl, ht, htail⟩ := List.map_eq_cons_iff.1 h
    obtain ⟨hitem, hlabel⟩ := ofToken_of_argument ht
    obtain ⟨hlabels, hitems⟩ := ih htail
    refine ⟨fun t' ht' => ?_, ?_⟩
    · rcases List.mem_cons.1 ht' with rfl | ht'
      · exact hlabel
      · exact hlabels t' ht'
    · rw [List.map_cons, List.map_cons, hitem, hitems, List.map_cons]

/-- Code that is written as tokens is written as their pieces. -/
theorem written_ofTokens {code : Code} {tokens : List Token}
    (h : tokens.map Token.text = code.texts) :
    (∀ t ∈ tokens, ¬t.isLabel = true) ∧ Written code (tokens.map Piece.ofToken) := by
  induction code generalizing tokens with
  | done =>
    rw [List.map_eq_nil_iff.1 h]
    exact ⟨fun _ ht => absurd ht List.not_mem_nil, .done⟩
  | command i rest ih =>
    obtain ⟨t, _, rfl, ht, h⟩ := List.map_eq_cons_iff.1 h
    obtain ⟨operands, later, rfl, hoperands, hlater⟩ := List.map_eq_append_iff.1 h
    obtain ⟨hlabels, hwritten⟩ := ih hlater
    obtain ⟨hlabels', hitems⟩ := ofTokens_of_arguments hoperands
    -- The opcode is none of a label, and what comes after it is none by induction.
    have hm : Opcode.ofMnemonic? t.text = some i.op := by rw [ht, i.ofMnemonic?_eq]
    refine ⟨fun t' ht' => ?_, ?_⟩
    · rcases List.mem_cons.1 ht' with rfl | ht'
      · rw [Token.isLabel, hm]
        simpa using i.op_ne.1
      · exact (List.mem_append.1 ht').elim (hlabels' t') (hlabels t')
    · rw [List.map_cons, List.map_append, Piece.ofToken_operation hm]
      exact .command hitems hwritten
  | conditional keyword body rest ihbody ihrest =>
    obtain ⟨t, _, rfl, ht, h⟩ := List.map_eq_cons_iff.1 h
    obtain ⟨opening, _, rfl, ho, h⟩ := List.map_eq_cons_iff.1 h
    obtain ⟨inner, _, rfl, hinner, h⟩ := List.map_eq_append_iff.1 h
    obtain ⟨closing, later, rfl, hc, hlater⟩ := List.map_eq_cons_iff.1 h
    obtain ⟨hlabels, hbody⟩ := ihbody hinner
    obtain ⟨hlabels', hrest⟩ := ihrest hlater
    have hm : Opcode.ofMnemonic? t.text = some .branch := by rw [ht, keyword.property]
    refine ⟨fun t' ht' => ?_, ?_⟩
    · rcases List.mem_cons.1 ht' with rfl | ht'
      · rw [Token.isLabel, hm]
        decide
      rcases List.mem_cons.1 ht' with rfl | ht'
      · rw [Piece.not_isLabel_of_blockOpen ho]
        exact Bool.false_ne_true
      rcases List.mem_append.1 ht' with ht' | ht'
      · exact hlabels t' ht'
      rcases List.mem_cons.1 ht' with rfl | ht'
      · rw [Piece.not_isLabel_of_blockClose hc]
        exact Bool.false_ne_true
      · exact hlabels' t' ht'
    · rw [List.map_cons, List.map_cons, List.map_append, List.map_cons, Piece.ofToken_operation hm,
        Piece.ofToken_blockOpen ho, Piece.ofToken_blockClose hc]
      exact .conditional hbody hrest

end Code

/-! ### Code among words of a text -/

/-- No aliases are defined in front of an opcode. -/
theorem Token.afterAliases_of_ofMnemonic? {t : Token} {rest : List Token} {op : Opcode}
    (h : Opcode.ofMnemonic? t.text = some op) : afterAliases (t :: rest) = t :: rest := by
  have halias : t.isAlias = false := by
    rw [isAlias, isAliasText]
    refine decide_eq_false fun ha => ?_
    have hnone : Opcode.spellings.lookup aliasDirective = none := by decide
    rw [Opcode.ofMnemonic?, ha, hnone] at h
    simp at h
  rw [afterAliases.eq_def]
  split
  · next heq =>
    cases heq
    rw [halias, if_neg Bool.false_ne_true]
  · rfl

/-- Code that is the words of a text is written as the pieces of its source. -/
theorem Source.written_pieces {code : Code} {s : Source}
    (h : s.tokens.toList.map Token.text = code.texts) : code.Written s.pieces := by
  obtain ⟨hlabels, hwritten⟩ := Code.written_ofTokens h
  have hbody : s.body = s.tokens.toList := by
    rw [body]
    cases code with
    | done => rw [List.map_eq_nil_iff.1 h]; rfl
    | command i rest =>
      obtain ⟨t, tokens, htokens, ht, _⟩ := List.map_eq_cons_iff.1 h
      have hm : Opcode.ofMnemonic? t.text = some i.op := by rw [ht, i.ofMnemonic?_eq]
      rw [htokens, Token.afterAliases_of_ofMnemonic? hm]
    | conditional keyword body rest =>
      obtain ⟨t, tokens, htokens, ht, _⟩ := List.map_eq_cons_iff.1 h
      have hm : Opcode.ofMnemonic? t.text = some .branch := by rw [ht, keyword.property]
      rw [htokens, Token.afterAliases_of_ofMnemonic? hm]
  rwa [pieces, hbody, Piece.ofTokens_eq_map hlabels]

/-! ## Code among words -/

namespace Code

/-- Code stands among words, from an address on. -/
def At (words : List Word) : (address : Nat) → Code → Prop
  | _, done => True
  | a, command i rest =>
    (∃ w, words[a]? = some w ∧ Header.decode w = Header.ofFlags i.op i.flags) ∧
      a + 1 + i.arguments.length ≤ words.length ∧ rest.At words (a + 1 + i.arguments.length)
  | a, conditional _ body rest =>
    (∃ w, words[a]? = some w ∧ Header.decode w = Header.ofFlags .branch [true]) ∧
      (∃ v, words[a + 1]? = some v ∧ v.toInt = body.width) ∧
        body.At words (a + 2) ∧ rest.At words (a + 2 + body.width)

end Code

/-- What is written as pieces of a source stands among the words of its program. -/
theorem Source.Stages.at_of_written {s : Source} {p : Program} (st : s.Stages p) {code : Code}
    {pieces : List Piece} (h : code.Written pieces) {pre post : List Piece}
    (hp : s.pieces = pre ++ (pieces ++ post)) (hpost : operandFlags post = []) :
    code.At p.words (widthOf pre) := by
  induction h generalizing pre post with
  | done => trivial
  | @command i rest line operands pieces hoperands hrest ih =>
    rw [List.cons_append, List.append_assoc] at hp
    have hnext : s.pieces = (pre ++ ⟨.operation i.op, line⟩ :: operands) ++ (pieces ++ post) := by
      rw [hp, List.append_assoc, List.cons_append]
    have hwidth : widthOf (pre ++ ⟨.operation i.op, line⟩ :: operands) =
        widthOf pre + 1 + i.arguments.length := by
      rw [Block.widthOf_append, widthOf, Code.widthOf_of_arguments hoperands, Nat.add_assoc]
      rfl
    obtain ⟨_, w, hw, hd⟩ := st.word_of_operation hp
    rw [Code.operandFlags_of_arguments hoperands (hrest.operandFlags_eq_nil hpost)] at hd
    have hle := st.widthOf_le_size hnext
    have hat := ih hnext hpost
    rw [hwidth] at hle hat
    exact ⟨⟨w, hw, hd⟩, by rwa [p.length_words], hat⟩
  | @conditional keyword body rest line opening closing inner pieces hbody hrest ihbody ihrest =>
    simp only [List.cons_append, List.append_assoc] at hp
    -- The pieces up to the opcode, to the brace that opens the block, and to the one that
    -- closes it.
    have hopening : s.pieces = (pre ++ [⟨.operation .branch, line⟩]) ++
        ⟨.opening, opening⟩ :: (inner ++ ⟨.closing, closing⟩ :: (pieces ++ post)) := by
      rw [hp, List.append_assoc]
      rfl
    have hinner : s.pieces = (pre ++ [⟨.operation .branch, line⟩, ⟨.opening, opening⟩]) ++
        (inner ++ ⟨.closing, closing⟩ :: (pieces ++ post)) := by
      rw [hp, List.append_assoc]
      rfl
    have hclosing : s.pieces = (pre ++ ⟨.operation .branch, line⟩ :: ⟨.opening, opening⟩ ::
        (inner ++ [⟨.closing, closing⟩])) ++ (pieces ++ post) := by
      rw [hp]
      simp only [List.cons_append, List.append_assoc, List.nil_append]
    have hwidth : widthOf (pre ++ ⟨.operation .branch, line⟩ :: ⟨.opening, opening⟩ ::
        (inner ++ [⟨.closing, closing⟩])) = widthOf pre + 2 + body.width := by
      rw [Block.widthOf_append, widthOf, widthOf, Block.widthOf_append, hbody.widthOf_eq]
      simp only [widthOf, Item.width]
      omega
    obtain ⟨_, w, hw, hd⟩ := st.word_of_operation hp
    have hword := st.word_of_opening hopening
    have hinside : Block.inside 0 (inner ++ ⟨.closing, closing⟩ :: (pieces ++ post)) = inner :=
      (hbody.inside_eq 0).trans (List.append_nil inner)
    rw [hinside, hbody.widthOf_eq, Block.widthOf_append] at hword
    have hle := st.widthOf_le_size hclosing
    have hbodyAt := ihbody hinner rfl
    have hrestAt := ihrest hclosing hpost
    rw [Block.widthOf_append] at hbodyAt
    rw [hwidth] at hle hrestAt
    have hcap := Nat.le_trans hle st.size_le
    exact ⟨⟨w, hw, hd⟩, ⟨_, hword, toInt_ofNat_of_le_cap (by omega)⟩,
      hbodyAt, hrestAt⟩

end GridBots
