import WordSwitch.Proofs.Program.Hygiene
import WordSwitch.Proofs.Program.Inclusion

/-!
# The form of the two units

With a name for the header, the declarations end the include guard, and the
definitions begin with the directive that includes them.  Without one, the guard
is left for the definitions to end, and these include no header of their own.
-/

namespace WordSwitch

open Source

namespace CodeConfig

/-- The same code as a single text. -/
def withoutHeader (config : CodeConfig) : CodeConfig :=
  { config with headerName := none }

/-- Some declarations end the include guard: after the included headers, one
condition is closed that was open. -/
def ClosesGuard
    (config : CodeConfig)
    (environment : Environment)
    (declarations : String) :
    Prop :=
  ∃ body, declarations = config.openingText ++ body ∧
    (preprocess environment [true] [] (tokenLines body.toList)).isSome = true

/-- Some definitions begin with the directive that includes the header. -/
def IncludesHeader (config : CodeConfig) (definitions : String) : Prop :=
  ∃ header ∈ config.headerName, ∃ body,
    definitions = Lines.text [Program.includeLine header] ++ body

end CodeConfig

namespace Program

/-- The declarations after the included headers end the guard exactly if they
are a file of their own. -/
theorem isSome_preprocess_declaredText_iff
    {config : CodeConfig}
    (named : config.IsNamed)
    {members : List Enumerator}
    (labels : ∀ member ∈ members, IsName member.label)
    (environment : Environment) :
    (preprocess environment [true] []
        (tokenLines (declaredText config members).toList)).isSome = true ↔
      config.isSplit = true := by
  have yields := yields_declaredLines named labels areOwn_nil environment
  unfold declaredText
  cases config.isSplit with
  | true =>
    have closed := yields.preprocess_text_guarded
    simp only [if_true, CodeConfig.guardEnd, closed, Option.isSome_some]
  | false =>
    have whole := yields [true] rfl []
    have unfinished : preprocess environment [true] [] (tokenLines []) =
        none := rfl
    rw [List.append_nil, unfinished] at whole
    rw [if_neg Bool.false_ne_true, List.append_nil, whole]
    simp

end Program

namespace Lexicon

variable
  {source : WordSwitch.Source}
  {lexicon : Lexicon}
  {code : CodeConfig}
  {recognizer : Recognizer}
  {units : Units}

/-- The declarations for a word list end the guard exactly if they are a file of
their own. -/
theorem closesGuard_iff
    (read : ofSource source = .ok lexicon)
    (checked : code.check = .ok ())
    (countable : code.checkAgainst lexicon = .ok ())
    (emitted : Program.units? code recognizer lexicon = some units)
    (environment : Environment) :
    code.ClosesGuard environment units.declarations ↔
      code.isSplit = true := by
  obtain ⟨others, again, declarations_eq, _⟩ :=
    exists_units read checked countable recognizer environment
  rw [emitted] at again
  cases again
  have valid := (members_with_counter read checked countable rfl).2.1
  have labels := fun member listed =>
    isName_of_isIdentifier (valid member listed).identifier
  rw [← Program.isSome_preprocess_declaredText_iff
    (CodeConfig.isNamed_of_check checked) labels environment]
  constructor
  · rintro ⟨body, body_eq, closes⟩
    rw [declarations_eq] at body_eq
    rw [Program.append_left_cancel body_eq]
    exact closes
  · exact fun closes => ⟨_, declarations_eq, closes⟩

/-- Code for a word list without a name for the header can be written down
whenever it can be with one. -/
theorem exists_units_withoutHeader
    (read : ofSource source = .ok lexicon)
    (checked : code.check = .ok ())
    (countable : code.checkAgainst lexicon = .ok ())
    (recognizer : Recognizer) :
    ∃ single,
      Program.units? code.withoutHeader recognizer lexicon = some single := by
  have checked_alone : code.withoutHeader.check = .ok () := checked
  have countable_alone : code.withoutHeader.checkAgainst lexicon = .ok () :=
    countable
  obtain ⟨single, emitted, _⟩ := exists_units read checked_alone
    countable_alone recognizer ⟨.little, true, true⟩
  exact ⟨single, emitted⟩

/-- A single text includes `<string.h>` in its definitions at most. -/
theorem includedFiles_withoutHeader
    (read : ofSource source = .ok lexicon)
    {config : RecognizerConfig}
    (built : lexicon.recognizer config = .ok recognizer)
    (checked : code.check = .ok ())
    {single : Units}
    (emitted : Program.units? code.withoutHeader recognizer lexicon =
      some single) :
    includedFiles single.definitions ⊆ includedFiles "#include <string.h>" := by
  have named : code.withoutHeader.IsNamed := CodeConfig.isNamed_of_check checked
  have text_eq := Program.definitions_of_units? emitted
  have unnamed : code.withoutHeader.includeText = "" := rfl
  rw [unnamed, String.empty_append] at text_eq
  rw [text_eq, Program.includedFiles_bodyText named
    (fit_definitions_of_ofSource read built)]
  split
  · exact List.nil_subset _
  · exact List.Subset.refl _

end Lexicon

/-- The definitions include the header exactly if it has a name. -/
theorem Program.includesHeader_iff
    {code : CodeConfig}
    {recognizer : Recognizer}
    {lexicon : Lexicon}
    {units : Units}
    (emitted : units? code recognizer lexicon = some units) :
    code.IncludesHeader units.definitions ↔ code.isSplit = true := by
  have text_eq := definitions_of_units? emitted
  unfold CodeConfig.isSplit
  constructor
  · rintro ⟨header, named, _⟩
    rw [Option.mem_def.mp named]
    rfl
  · intro split
    obtain ⟨header, named⟩ := Option.isSome_iff_exists.mp split
    refine ⟨header, named,
      bodyText code recognizer.wideWidths recognizer.definitions, ?_⟩
    rw [text_eq, CodeConfig.includeText, named]
    rfl

end WordSwitch
