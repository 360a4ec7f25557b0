import WordSwitch.Proofs.Program.Declarations
import WordSwitch.Proofs.Program.Returned

/-!
# Names of enumerators

Every name that the generated functions return is that of an enumerator.  It
stands for the enumerator unless it is spelled like one of the names that the
code gives to something else.  Nothing keeps labels and the counter from being
spelled like that.
-/

namespace WordSwitch

open Source

namespace Program

section

variable
  (config : CodeConfig)
  {wideWidths : List Nat}
  {definitions : Program.Definitions}

end

end Program

namespace Lexicon

variable
  {source : WordSwitch.Source}
  {lexicon : Lexicon}
  {code : CodeConfig}

/-- The definitions for a word list are read as they are meant. -/
theorem fit_definitions_of_ofSource
    (read : ofSource source = .ok lexicon)
    {config : RecognizerConfig}
    {recognizer : Recognizer}
    (built : lexicon.recognizer config = .ok recognizer) :
    recognizer.definitions.Fit recognizer.wideWidths := by
  have once := assignedOnce_of_ofSource read
  have valid := isValid_of_mem_enumeration read
  obtain ⟨declarations, reached, _⟩ := exists_parsed_of_ofSource read
  have entries_named : ∀ entry ∈ lexicon.entries, IsName entry.label := by
    intro entry inEntries
    obtain ⟨member, listed, label_eq⟩ :=
      (holds_assertions reached).exists_entry_member once inEntries
    exact label_eq ▸ isName_of_isIdentifier (valid member listed).identifier
  have fallback_named : IsName lexicon.fallback.label := by
    obtain ⟨member, listed, label_eq⟩ := once.exists_fallback_member
    exact label_eq ▸ isName_of_isIdentifier (valid member listed).identifier
  exact (once.builds built).fit_definitions (limit_le_of_recognizer built)
    entries_named fallback_named

end Lexicon
end WordSwitch
