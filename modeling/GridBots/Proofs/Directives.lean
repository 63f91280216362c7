import GridBots.Proofs.Stages

/-!
# Directives at the beginning

The aliases of a source stand at its beginning, one after the other. Each takes three words:
the word that begins it, its name and its value. So every third word begins an alias, as long
as all of them before do (`Token.IsDirective`).
-/

namespace GridBots.Token

/-- The word with the index `3 * k` begins an alias at the beginning of words. -/
def IsDirective (words : List String) (k : Nat) : Prop :=
  ∀ j ≤ k, ∃ word, words[3 * j]? = some word ∧ isAliasText word = true

variable {words : List String} {k : Nat}

theorem isDirective_zero {word : String} :
    IsDirective (word :: words) 0 ↔ isAliasText word = true := by
  constructor
  · intro h
    obtain ⟨_, hw, ha⟩ := h 0 (Nat.le_refl 0)
    cases hw
    exact ha
  · intro ha j hj
    obtain rfl := Nat.le_zero.1 hj
    exact ⟨word, rfl, ha⟩

theorem isAliasText_of_isDirective {word : String} (h : IsDirective (word :: words) k) :
    isAliasText word = true :=
  isDirective_zero.1 fun j hj => h j (Nat.le_trans hj (Nat.zero_le k))

/-- After an alias, the others follow as at the beginning. -/
theorem isDirective_succ {word name value : String} :
    IsDirective (word :: name :: value :: words) (k + 1) ↔
      isAliasText word = true ∧ IsDirective words k := by
  constructor
  · intro h
    refine ⟨isAliasText_of_isDirective h, fun j hj => ?_⟩
    obtain ⟨w, hw, ha⟩ := h (j + 1) (Nat.succ_le_succ hj)
    exact ⟨w, hw, ha⟩
  · rintro ⟨ha, h⟩ j hj
    cases j with
    | zero => exact ⟨word, rfl, ha⟩
    | succ j => exact h j (Nat.le_of_succ_le_succ hj)

end GridBots.Token
