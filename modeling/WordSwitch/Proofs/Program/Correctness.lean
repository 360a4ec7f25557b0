import WordSwitch.Proofs.Program.Naming

/-!
# The text of the definitions recognizes the words

The text of the definitions is read where the declarations end, after the macro
of the include guard.  If the names in the configuration can stand there, it is
read as functions of which the entry function returns the enumerator that is
looked up, whatever the order of bytes, the signedness of characters and the
language.
-/

namespace WordSwitch

open Source

namespace CodeConfig

/-- The text of the directive that includes the declarations, if they are a file
of their own. -/
def includeText (config : CodeConfig) : String :=
  Lines.text (config.headerName.map Program.includeLine).toList

end CodeConfig

namespace Program

/-- The text of the definitions after the directive that includes the
declarations. -/
def bodyText
    (config : CodeConfig)
    (wideWidths : List Nat)
    (definitions : Program.Definitions) :
    String :=
  Lines.text (bodyLines config wideWidths definitions ++
    if config.isSplit then [] else CodeConfig.guardEnd)

theorem text_definitionLines
    (config : CodeConfig)
    (wideWidths : List Nat)
    (definitions : Program.Definitions) :
    Lines.text (definitionLines config wideWidths definitions) =
      config.includeText ++ bodyText config wideWidths definitions := by
  rw [CodeConfig.includeText, bodyText, ← Lines.text_append, definitionLines,
    bodyLines]
  simp only [List.append_assoc]

section

variable
  {config : CodeConfig}
  {wideWidths : List Nat}
  {definitions : Program.Definitions}

/-- Lines that leave the tokens of the definitions are read as them. -/
theorem readAfter_of_yields
    (fit : definitions.Fit wideWidths)
    {environment : Environment}
    {before macros : List Macro}
    {lines : Lines}
    (yields : Yields environment before lines macros
      (definitionsPhrase config environment.isCplusplus wideWidths
        definitions).tokens) :
    Source.readAfter environment before config.openConditions
        (Lines.text (lines ++
          if config.isSplit then [] else CodeConfig.guardEnd)) =
      some (sourceDefinitions macros config wideWidths definitions) := by
  obtain ⟨functions, parsed, functions_eq, headings_eq⟩ :=
    functions?_definitionsPhrase config environment.isCplusplus fit
  rw [sourceDefinitions, ← functions_eq, ← headings_eq]
  unfold CodeConfig.openConditions
  split
  · rw [List.append_nil]
    exact yields.readAfter parsed
  · exact yields.readAfter_guarded parsed

/-- The text after the directive is read as the definitions. -/
theorem readAfter_bodyText
    (named : config.IsNamed)
    (fit : definitions.Fit wideWidths)
    {before : List Macro}
    (own : AreOwn before)
    (environment : Environment) :
    Source.readAfter environment before config.openConditions
        (bodyText config wideWidths definitions) =
      some (sourceDefinitions (placeMacros environment before wideWidths) config
        wideWidths definitions) :=
  readAfter_of_yields fit (yields_bodyLines named fit own environment)

end

theorem definitions_of_units?
    {config : CodeConfig}
    {recognizer : Recognizer}
    {lexicon : Lexicon}
    {units : Units}
    (emitted : units? config recognizer lexicon = some units) :
    units.definitions = config.includeText ++
      bodyText config recognizer.wideWidths recognizer.definitions := by
  obtain ⟨declarations, _, rfl⟩ := Option.map_eq_some_iff.mp emitted
  exact text_definitionLines config recognizer.wideWidths recognizer.definitions

end Program

namespace Lexicon

/-- Nested names, with the declarations in a file of their own. -/
def methodCode : CodeConfig :=
  ⟨"Method", "find", some "Count", some "http::v1", some "find.h", true, true,
    []⟩

/-- One word of which several bytes are read at once. -/
def pair : List Declaration := [.entry [97, 98] "ab" none]

end Lexicon
end WordSwitch
