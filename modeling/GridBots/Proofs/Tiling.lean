import GridBots.Proofs.Instructions

/-!
# Instructions tile a program

A program is read as instructions by going from one to the next (`Program.next?`): an instruction
is at an address, and the one after it follows its operands. This comes to an end, and the
instructions are those of the program (`Program.yields_iff`).

No word is lost on the way, whatever the words are: the words of the instructions, one after the
other, are those of the program (`Program.instructions_tile`). Only the last instruction may lack
operands. It is because every word is the encoding of the header it decodes to that the headers,
too, come out as they were.
-/

namespace GridBots

/-- The words of an instruction: its header, and its operands. -/
def Instruction.words (i : Instruction) : List Word :=
  i.header.encode :: i.operands

namespace Program

variable (p : Program)

/-- The instruction at an address, and the address of the one after it. There is none if the
    program has no word at the address. -/
def next? (address : Nat) : Option (Instruction × Nat) :=
  p.words[address]?.map fun w =>
    (Instruction.read address w (p.words.drop (address + 1)), address + (Header.decode w).width)

/-- Going from one instruction to the next, from an address on, gives these instructions, and
    comes to an end after them. -/
inductive Yields : Nat → List Instruction → Prop
  | ended {address : Nat} : p.next? address = none → Yields address []
  | next {address later : Nat} {i : Instruction} {rest : List Instruction} :
      p.next? address = some (i, later) → Yields later rest → Yields address (i :: rest)

variable {p} {address later : Nat} {i : Instruction} {rest : List Instruction}

theorem next?_eq_none_iff : p.next? address = none ↔ p.size ≤ address := by
  rw [next?, Option.map_eq_none_iff, List.getElem?_eq_none_iff, length_words]

/-- The instruction at an address is made of the words there. -/
theorem words_of_next? (h : p.next? address = some (i, later)) :
    i.address = address ∧ later = address + 1 + i.header.operandCount ∧
      i.operands.length = min i.header.operandCount (p.size - (address + 1)) ∧
      p.words.drop address = i.words ++ p.words.drop later := by
  obtain ⟨w, hw, heq⟩ := Option.map_eq_some_iff.1 h
  obtain ⟨rfl, rfl⟩ := Prod.mk.inj heq
  have hlater : address + (Header.decode w).width =
      address + 1 + (Header.decode w).operandCount := by
    rw [Header.width_decode]
    omega
  refine ⟨rfl, hlater, by simp [Instruction.read, length_words], ?_⟩
  -- The operands are taken from the words after the header, and the rest follows them.
  simp only [Instruction.words, Instruction.read, Header.encode_decode]
  rw [drop_eq_cons hw, hlater, List.cons_append,
    ← List.drop_drop (i := (Header.decode w).operandCount), List.take_append_drop]

/-! ## Going through a program -/

theorem yields_ofWords {pending : Nat} {words : List Word} (h : p.words.drop address = words) :
    p.Yields (address + pending) (Instruction.ofWords address pending words) := by
  induction words generalizing address pending with
  | nil =>
    have hend : p.size ≤ address := by
      rw [← length_words]
      exact List.drop_eq_nil_iff.1 h
    have hnil : Instruction.ofWords address pending [] = [] := by cases pending <;> rfl
    rw [hnil]
    exact .ended (next?_eq_none_iff.2 (by omega))
  | cons w words ih =>
    have hrest : p.words.drop (address + 1) = words := by rw [← List.drop_drop, h]; rfl
    cases pending with
    | succ pending =>
      have hskip : p.Yields (address + 1 + pending)
          (Instruction.ofWords (address + 1) pending words) := ih hrest
      rwa [Nat.add_assoc, Nat.add_comm 1] at hskip
    | zero =>
      have hw : p.words[address]? = some w := by
        rw [← Nat.add_zero address, ← List.getElem?_drop, h]
        rfl
      have hnext : p.next? address = some (Instruction.read address w words,
          address + 1 + (Header.decode w).operandCount) := by
        rw [next?, hw, Option.map_some, hrest, Header.width_decode, Nat.add_comm _ 1, Nat.add_assoc]
      exact .next hnext (ih hrest)

theorem Yields.eq {is is' : List Instruction} (h : p.Yields address is)
    (h' : p.Yields address is') : is = is' := by
  induction h generalizing is' with
  | ended hend =>
    cases h' with
    | ended _ => rfl
    | next hnext _ => simp [hend] at hnext
  | next hnext _ ih =>
    cases h' with
    | ended hend => simp [hend] at hnext
    | next hnext' hrest =>
      cases Option.some.inj (hnext.symm.trans hnext')
      rw [ih hrest]

/-- Going through a program from its first word on gives its instructions, and nothing else. -/
theorem yields_iff {is : List Instruction} : p.Yields 0 is ↔ is = p.instructions := by
  have h : p.Yields (0 + 0) p.instructions := yields_ofWords List.drop_zero
  exact ⟨fun h' => h'.eq h, fun heq => heq ▸ h⟩

/-! ## What is gone through -/

theorem Yields.address_eq (h : p.Yields address (i :: rest)) : i.address = address := by
  cases h with
  | next hnext _ => exact (words_of_next? hnext).1

theorem Yields.lt_size (h : p.Yields address (i :: rest)) : address < p.size := by
  cases h with
  | next hnext _ => exact Nat.not_le.1 fun hle => by simp [next?_eq_none_iff.2 hle] at hnext

theorem Yields.flatMap_words {is : List Instruction} (h : p.Yields address is) :
    is.flatMap Instruction.words = p.words.drop address := by
  induction h with
  | ended hend =>
    rw [next?_eq_none_iff, ← length_words] at hend
    rw [List.flatMap_nil, List.drop_eq_nil_of_le hend]
  | next hnext _ ih => rw [List.flatMap_cons, ih, (words_of_next? hnext).2.2.2]

/-- An instruction that another one follows has all its operands, and the other is right after
    them. -/
theorem Yields.isChain {is : List Instruction} (h : p.Yields address is) :
    is.IsChain fun i j =>
      j.address = i.address + 1 + i.header.operandCount ∧
        i.operands.length = i.header.operandCount := by
  induction h with
  | ended _ => exact .nil
  | @next address later i rest hnext hrest ih =>
    obtain ⟨haddress, hlater, hlength, _⟩ := words_of_next? hnext
    cases rest with
    | nil => exact .singleton i
    | cons j rest =>
      refine .cons_cons ⟨?_, ?_⟩ ih
      · rw [hrest.address_eq, haddress, hlater]
      · have hlt := hrest.lt_size
        omega

theorem Yields.length_operands {is : List Instruction} (h : p.Yields address is) :
    ∀ i ∈ is, i.operands.length = min i.header.operandCount (p.size - (i.address + 1)) := by
  induction h with
  | ended _ => exact fun _ hi => absurd hi List.not_mem_nil
  | next hnext _ ih =>
    obtain ⟨haddress, _, hlength, _⟩ := words_of_next? hnext
    exact List.forall_mem_cons.2 ⟨haddress ▸ hlength, ih⟩

/-- Instructions tile a program, whatever its words are. Going from one to the next comes to an
    end. The first is at address zero, and each of the others follows the operands of the one
    before, which are as many as its header says. The last has as many of its operands as there
    are words left. Headers and operands one after the other are the words of the program. -/
theorem instructions_tile (p : Program) :
    (∀ is, p.Yields 0 is ↔ is = p.instructions) ∧
      (∀ i ∈ p.instructions.head?, i.address = 0) ∧
      (p.instructions.IsChain fun i j =>
        j.address = i.address + 1 + i.header.operandCount ∧
          i.operands.length = i.header.operandCount) ∧
      (∀ i ∈ p.instructions.getLast?,
        i.operands.length = min i.header.operandCount (p.size - (i.address + 1))) ∧
      (p.instructions.flatMap fun i => i.header.encode :: i.operands) = p.words := by
  have h : p.Yields 0 p.instructions := yields_iff.2 rfl
  refine ⟨fun _ => yields_iff, fun i hi => ?_, h.isChain,
    fun i hi => h.length_operands i (List.mem_of_getLast? hi), h.flatMap_words⟩
  obtain ⟨rest, hrest⟩ := List.head?_eq_some_iff.1 hi
  rw [hrest] at h
  exact h.address_eq

/-- Words that are not meant as instructions: the first of them, read as one, has five operands,
    of which three are there. -/
example : instructions ⟨[⟨-1207959549, 1⟩, ⟨9, 1⟩, ⟨8, 2⟩, ⟨-1, 2⟩], 0⟩ =
    [⟨0, ⟨3, 5, 96⟩, [9, 8, -1]⟩] := by decide

end Program

end GridBots
