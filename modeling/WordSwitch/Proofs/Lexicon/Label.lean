import WordSwitch.Lexicon.Label

/-!
# Characters of identifiers

An identifier consists of letters, digits and underscores.
-/

namespace WordSwitch
namespace Label

theorem isLater_of_isFirst
    {char : Char}
    (first : isFirst char = true) :
    isLater char = true := by
  unfold isFirst at first
  unfold isLater Char.isAlphanum
  rcases Bool.or_eq_true _ _ |>.mp first with letter | underscore
  · simp [letter]
  · simp [underscore]

theorem isLater_of_spellsIdentifier
    {chars : List Char}
    (spells : spellsIdentifier chars = true) :
    ∀ char ∈ chars, isLater char = true := by
  cases chars with
  | nil => cases spells
  | cons first rest =>
    rw [spellsIdentifier, Bool.and_eq_true] at spells
    obtain ⟨isFirst, isRest⟩ := spells
    rw [List.forall_mem_cons]
    exact ⟨isLater_of_isFirst isFirst, List.all_eq_true.mp isRest⟩

theorem isLater_of_isIdentifier
    {label : String}
    (identifier : isIdentifier label = true) :
    ∀ char ∈ label.toList, isLater char = true :=
  isLater_of_spellsIdentifier identifier

end Label
end WordSwitch
