import GridBots.Proofs.Definitions

/-!
# Names that are looked up and names that are used

A name can be looked up in a table of symbols, which changes nothing, or be used, which may make a
variable of it. The two ask for built-in names and definitions in a different order, but they come
to the same in every table that is made by definitions and uses of names
(`SymbolTable.lookup_agrees_with_resolve`), whatever names are defined to be: themselves, each
other, or names that are variables already.

It is so because no built-in name is defined. For then what a name stands for is a number that it is
defined to be, or what another name, its *target*, stands for by itself (`lookup_eq`, `resolve_eq`).
-/

namespace GridBots.SymbolTable

/-- What is done to a table. -/
inductive Call
  /-- A name is defined. -/
  | define (name : String) (value : Symbol)
  /-- A name is used. -/
  | resolve (name : String)
  deriving DecidableEq

/-- What comes of a call. -/
inductive Answer
  | defined
  | resolved (w : Word)
  | refused (fault : Fault)
  deriving DecidableEq

/-- What comes of a call, and the table after it. A call that is refused leaves the table as it
    is. -/
def perform (t : SymbolTable) : Call → Answer × SymbolTable
  | .define name value =>
    match t.define name value with
    | .ok t' => (.defined, t')
    | .error fault => (.refused fault, t)
  | .resolve name =>
    match t.resolve name with
    | .ok (w, t') => (.resolved w, t')
    | .error fault => (.refused fault, t)

/-- The tables that are made by definitions and uses of names. -/
inductive Reachable : SymbolTable → Prop
  | empty : Reachable empty
  | perform {t : SymbolTable} (call : Call) : Reachable t → Reachable (t.perform call).2

/-- The name that has to be known if a name is not defined to be a number. -/
def target (t : SymbolTable) (name : String) : String :=
  match t.definition? name with
  | some (.name other) => other
  | _ => name

variable {t t' : SymbolTable} {name : String} {w : Word} {value : Symbol} {call : Call}

/-! ## One rule for both -/

theorem resolve_eq (t : SymbolTable) (name : String) :
    t.resolve name =
      match t.number? name with
      | some w => .ok (w, t)
      | none => t.settle (t.target name) := by
  rw [resolve_eq_settle, number?, target]
  cases t.definition? name with
  | none => rfl
  | some symbol => cases symbol <;> rfl

/-- If no built-in name is defined, a name is looked up as it is used. -/
theorem lookup_eq (ht : t.Unreserved) (name : String) :
    t.lookup name =
      match t.number? name with
      | some w => some w
      | none => t.lookupTarget? (t.target name) := by
  cases hd : t.definition? name with
  | none => simp [lookup, number?, target, lookupTarget?, hd]
  | some symbol =>
    have hb : builtin? name = none := ht.builtin?_eq (by rw [hd]; rfl)
    cases symbol <;> simp [lookup, number?, target, hb, hd]

theorem resolve_of_lookup (ht : t.Unreserved) (h : t.lookup name = some w) :
    t.resolve name = .ok (w, t) := by
  rw [lookup_eq ht] at h
  rw [resolve_eq]
  cases hn : t.number? name with
  | some v =>
    rw [hn] at h
    simp [Option.some.inj h]
  | none =>
    rw [hn] at h
    dsimp only at h ⊢
    rw [settle, h]

/-- A name that is not known makes its target a variable, if it can be used. -/
theorem resolve_of_lookup_eq_none (ht : t.Unreserved) (h : t.lookup name = none) :
    t.lookupTarget? (t.target name) = none ∧
      t.resolve name =
        if t.variableNames.length < variableCap then
          .ok (variableAddress t.variableNames.length,
            { t with variableNames := t.variableNames ++ [t.target name] })
        else .error .variableZoneFull := by
  rw [lookup_eq ht] at h
  rw [resolve_eq]
  cases hn : t.number? name with
  | some v => simp [hn] at h
  | none =>
    rw [hn] at h
    dsimp only at h ⊢
    rw [settle, h]
    exact ⟨rfl, rfl⟩

/-! ## Tables that are made by calls -/

/-- What is so of all tables that are made by definitions and uses of names. -/
structure Proper (t : SymbolTable) : Prop where
  unreserved : t.Unreserved
  sized : t.Sized
  nodup : t.variableNames.Nodup
  builtin?_eq_none : ∀ name ∈ t.variableNames, builtin? name = none
  length_le : t.variableNames.length ≤ variableCap

theorem proper_empty : empty.Proper :=
  ⟨unreserved_empty, sized_empty, List.nodup_nil, by simp [empty], by simp [empty]⟩

theorem Proper.define (ht : t.Proper) (h : t.define name value = .ok t') : t'.Proper := by
  have hvariables := variableNames_define h
  refine ⟨ht.unreserved.define h, ht.sized.define h, ?_, ?_, ?_⟩ <;> rw [hvariables]
  · exact ht.nodup
  · exact ht.builtin?_eq_none
  · exact ht.length_le

/-- A name becomes a variable if it is not known what it stands for by itself. -/
theorem Proper.append (ht : t.Proper) (h : t.lookupTarget? name = none)
    (hroom : t.variableNames.length < variableCap) :
    Proper { t with variableNames := t.variableNames ++ [name] } := by
  simp only [lookupTarget?, Option.orElse_eq_orElse, Option.orElse_eq_or, Option.or_eq_none_iff] at h
  have hnew : name ∉ t.variableNames := not_mem_variableNames_of_addressOf? h.2.2 ht.length_le
  refine ⟨ht.unreserved, ⟨ht.sized.nodup, ht.sized.card_names_le⟩, ?_, fun other hother => ?_, ?_⟩
  · refine List.nodup_append.2 ⟨ht.nodup, List.nodup_singleton name, fun other hother _ hname => ?_⟩
    rw [List.mem_singleton.1 hname]
    exact ne_of_mem_of_not_mem hother hnew
  · rcases List.mem_append.1 hother with hmem | hmem
    · exact ht.builtin?_eq_none other hmem
    · rw [List.mem_singleton.1 hmem]
      exact h.1
  · rw [List.length_append]
    exact hroom

theorem Proper.resolve (ht : t.Proper) (h : t.resolve name = .ok (w, t')) : t'.Proper := by
  cases hl : t.lookup name with
  | some v =>
    rw [resolve_of_lookup ht.unreserved hl] at h
    cases h
    exact ht
  | none =>
    obtain ⟨hsettled, hresolve⟩ := resolve_of_lookup_eq_none ht.unreserved hl
    rw [hresolve] at h
    split at h
    · next hroom =>
      cases h
      exact ht.append hsettled hroom
    · cases h

theorem Proper.perform (ht : t.Proper) (call : Call) : (t.perform call).2.Proper := by
  cases call with
  | define name value =>
    rw [SymbolTable.perform]
    split
    · next h => exact ht.define h
    · exact ht
  | resolve name =>
    rw [SymbolTable.perform]
    split
    · next h => exact ht.resolve h
    · exact ht

theorem Reachable.proper (ht : t.Reachable) : t.Proper := by
  induction ht with
  | empty => exact proper_empty
  | perform call _ ih => exact ih.perform call

theorem Sized.length_le (ht : t.Sized) : t.entries.length ≤ entryCap :=
  ht.card_names ▸ ht.card_names_le

theorem Unreserved.isReserved_eq (ht : t.Unreserved) {e : String × Symbol} (he : e ∈ t.entries) :
    isReserved e.1 = false := by
  refine ht e.1 (Option.isSome_iff_ne_none.2 fun hnone => ?_)
  rw [definition?_eq_none_iff, names, List.mem_toFinset] at hnone
  exact hnone (List.mem_map_of_mem he)

/-- Every variable has an address, as there are not too many. -/
theorem Proper.variableAddresses_eq (ht : t.Proper) :
    t.variableAddresses = t.variableNames.zipIdx.map fun e => (e.1, variableAddress e.2) := by
  refine List.filterMap_eq_map_iff_forall_eq_some.2 fun e he => ?_
  have hlt := List.snd_lt_of_mem_zipIdx he
  rw [variableAddress?_eq, if_pos (Nat.lt_of_lt_of_le hlt ht.length_le)]
  rfl

theorem Proper.getElem?_variableAddresses (ht : t.Proper) {i : Nat}
    (h : t.variableNames[i]? = some name) :
    ∃ w : Word, t.variableAddresses[i]? = some (name, w) ∧ w.toInt = 3000 + (i : Int) := by
  refine ⟨variableAddress i, by simp [ht.variableAddresses_eq, h], toInt_variableAddress ?_⟩
  exact Nat.lt_of_lt_of_le (List.getElem?_eq_some_iff.1 h).1 ht.length_le

/-! ## Calls -/

theorem lookup_of_define (h : t.define name (.number w) = .ok t') : t'.lookup name = some w := by
  have hr := isReserved_of_define h
  rw [isReserved, Bool.or_eq_false_iff, Option.isSome_eq_false_iff, Option.isNone_iff_eq_none] at hr
  simp [lookup, hr.2, definition?_define h]

theorem lookup_of_perform_define (h : t.perform (.define name (.number w)) = (.defined, t')) :
    t'.lookup name = some w := by
  rw [perform] at h
  split at h
  · next hdefine =>
    cases h
    exact lookup_of_define hdefine
  · cases h

/-- A name that is defined can be defined again, also if there is no room for another one. -/
theorem exists_define_of_definition? (ht : t.Unreserved) (h : (t.definition? name).isSome = true)
    (value : Symbol) : ∃ t', t.define name value = .ok t' := by
  have hdefined : ¬((t.definition? name).isNone = true ∧ entryCap ≤ t.entries.length) := by
    rw [← Option.not_isSome, h]
    exact fun hnone => absurd hnone.1 (by decide)
  rw [define, if_neg (by rw [ht name h]; exact Bool.false_ne_true), if_neg hdefined]
  exact ⟨_, rfl⟩

/-- What is known of a name does not change when another is used. -/
theorem lookup_of_perform_resolve (ht : t.Unreserved) (h : t.lookup name = some w)
    (other : String) : (t.perform (.resolve other)).2.lookup name = some w := by
  rw [perform]
  split
  · next hresolve => exact (extends_resolve ht hresolve).1.lookup_eq h
  · exact h

theorem eq_of_perform_refused {fault : Fault} (h : (t.perform call).1 = .refused fault) :
    (t.perform call).2 = t := by
  cases call with
  | define | resolve =>
    rw [perform] at h ⊢
    split at h
    · cases h
    · rfl

/-- Looking up a name and using it agree, in every table that is made by definitions and uses of
    names. Such a table defines different names, none of them reserved, and no more than 512. It
    has different variables, none of them built in, and no more than 1000, at addresses one after
    the other from 3000 on.

    A name that is known is used as what it is looked up to be, and nothing changes. One that is
    not known makes one more variable, and is known to be this from then on; or it is refused, when
    there are 1000 variables already. The use of a name changes nothing for names that are known. A
    name that is defined to be a number is known to be it. A name that has a definition can be
    defined again. What is refused changes nothing. -/
theorem lookup_agrees_with_resolve (ht : t.Reachable) :
    ((t.entries.map Prod.fst).Nodup ∧ (∀ e ∈ t.entries, isReserved e.1 = false) ∧
      t.entries.length ≤ 512) ∧
    (t.variableNames.Nodup ∧ (∀ name ∈ t.variableNames, builtin? name = none) ∧
      t.variableNames.length ≤ 1000 ∧
      ∀ (i : Nat) (name : String), t.variableNames[i]? = some name →
        ∃ w : Word, t.variableAddresses[i]? = some (name, w) ∧ w.toInt = 3000 + (i : Int)) ∧
    ∀ name,
      (∀ w, t.lookup name = some w → t.perform (.resolve name) = (.resolved w, t)) ∧
      (t.lookup name = none →
        (∃ (added : String) (w : Word) (t' : SymbolTable), t.variableNames.length < 1000 ∧
          t.perform (.resolve name) = (.resolved w, t') ∧ t'.entries = t.entries ∧
          t'.variableNames = t.variableNames ++ [added] ∧
          w.toInt = 3000 + (t.variableNames.length : Int) ∧ t'.lookup name = some w) ∨
        t.variableNames.length = 1000 ∧
          t.perform (.resolve name) = (.refused .variableZoneFull, t)) ∧
      (∀ other w, t.lookup other = some w →
        (t.perform (.resolve name)).2.lookup other = some w) ∧
      (∀ w t', t.perform (.define name (.number w)) = (.defined, t') → t'.lookup name = some w) ∧
      (∀ value, (t.definition? name).isSome = true →
        (t.perform (.define name value)).1 = .defined) ∧
      ∀ call fault, (t.perform call).1 = .refused fault → (t.perform call).2 = t := by
  have hproper := ht.proper
  have hunreserved := hproper.unreserved
  refine ⟨⟨hproper.sized.nodup, fun e => hunreserved.isReserved_eq, hproper.sized.length_le⟩,
    ⟨hproper.nodup, hproper.builtin?_eq_none, hproper.length_le,
      fun i name => hproper.getElem?_variableAddresses⟩,
    fun name => ⟨fun w hw => ?known, fun hnone => ?unknown, fun other w hw => ?others,
      fun w t' => lookup_of_perform_define, fun value hdefined => ?again,
      fun call fault => eq_of_perform_refused⟩⟩
  case known => rw [perform, resolve_of_lookup hunreserved hw]
  case unknown =>
    obtain ⟨_, hresolve⟩ := resolve_of_lookup_eq_none hunreserved hnone
    by_cases hroom : t.variableNames.length < variableCap
    · rw [if_pos hroom] at hresolve
      exact .inl ⟨t.target name, _, { t with variableNames := t.variableNames ++ [t.target name] },
        hroom, by rw [perform, hresolve], rfl, rfl, toInt_variableAddress hroom,
        (extends_resolve hunreserved hresolve).2⟩
    · rw [if_neg hroom] at hresolve
      exact .inr ⟨Nat.le_antisymm hproper.length_le (Nat.not_lt.1 hroom),
        by rw [perform, hresolve]⟩
  case others => exact lookup_of_perform_resolve hunreserved hw name
  case again =>
    obtain ⟨t', h⟩ := exists_define_of_definition? hunreserved hdefined value
    rw [perform, h]

/-- A table in which a name is an alias of itself, and a variable, and another name is an alias of
    an alias of it. -/
def chained : SymbolTable :=
  ⟨[("c", .name "b"), ("b", .name "a"), ("a", .name "a")], ["a"]⟩

theorem reachable_chained : chained.Reachable :=
  ((((Reachable.empty.perform (.define "a" (.name "a"))).perform (.resolve "a")).perform
    (.define "b" (.name "a"))).perform (.define "c" (.name "b")))

theorem lookup_agrees_with_resolve_chained :
    chained.Reachable ∧ chained.perform (.resolve "b") = (.resolved 3000, chained) ∧
      chained.lookup "c" = none ∧
        ∃ (added : String) (w : Word) (t' : SymbolTable),
          chained.perform (.resolve "c") = (.resolved w, t') ∧
            t'.variableNames = ["a", added] ∧ w.toInt = 3001 ∧ t'.lookup "c" = some w := by
  obtain ⟨_, _, hnames⟩ := lookup_agrees_with_resolve reachable_chained
  refine ⟨reachable_chained, (hnames "b").1 3000 rfl, rfl, ?_⟩
  rcases (hnames "c").2.1 rfl with ⟨added, w, t', _, hresolve, _, hvariables, hw, hlookup⟩ | hfull
  · exact ⟨added, w, t', hresolve, hvariables, hw, hlookup⟩
  · exact absurd hfull.1 (by decide)

end GridBots.SymbolTable
