import WordSwitch.Proofs.Program.Terms

/-!
# Functions of generated code

What the phrases of generated functions are read as.  The phrase of all
definitions is read as the functions that read several bytes, the function for
each length, and the entry function.
-/

namespace WordSwitch

open Source

namespace Program

/-- A function that reads some bytes at once. -/
def loadDefinition (config : CodeConfig) (width : Nat) : Function :=
  ⟨config.loadFunction (8 * width), [⟨"p", true⟩], .load (8 * width) "p"⟩

/-- The function for a length. -/
def lengthDefinition
    (config : CodeConfig)
    (length : Nat)
    (code : Code) :
    Function :=
  ⟨config.lengthFunction length, [⟨"string", true⟩],
    .code (code.sequence config)⟩

/-- The choice among the functions by the length. -/
def choiceSequence
    (config : CodeConfig)
    (fallback : String) :
    List (Nat × Code) → Sequence
  | [] => .otherwise (.answer (config.path fallback) .nil)
  | (length, _) :: rest =>
    .label (.numeral length false)
      (.delegate (config.lengthFunction length) (.name "string")
        (choiceSequence config fallback rest))

/-- The body of the entry function. -/
def entrySequence
    (config : CodeConfig)
    (definitions : Program.Definitions) :
    Sequence :=
  let choice := .switch (.name "length")
    (choiceSequence config definitions.fallback definitions.functions) .nil
  if definitions.functions.isEmpty then .unused "string" choice else choice

/-- The entry function. -/
def entryDefinition
    (config : CodeConfig)
    (definitions : Program.Definitions) :
    Function :=
  ⟨config.functionName, [⟨"string", true⟩, ⟨"length", false⟩],
    .code (entrySequence config definitions)⟩

/-- All functions. -/
def sourceFunctions
    (config : CodeConfig)
    (wideWidths : List Nat)
    (definitions : Program.Definitions) :
    List Function :=
  wideWidths.map (loadDefinition config) ++
    (definitions.functions.map (fun (length, code) =>
        lengthDefinition config length code) ++
      [entryDefinition config definitions])

/-- The type of what the functions for the recognizer return. -/
def resultType (config : CodeConfig) : Result :=
  if config.enumClass then .ofWord config.enumName
  else .enumeration config.enumName true

/-- The namespaces around the functions for the recognizer. -/
def namespaces (config : CodeConfig) : List String :=
  match config.namespaceName with
  | none => []
  | some name => (CodeConfig.segments name.toList).map String.ofList

/-- What is said of a function that reads some bytes at once. -/
def loadHeading (config : CodeConfig) (width : Nat) : Heading :=
  ⟨[], .integer (8 * width), config.loadFunction (8 * width)⟩

/-- What is said of a function for the recognizer. -/
def recognizerHeading (config : CodeConfig) (name : String) : Heading :=
  ⟨namespaces config, resultType config, name⟩

/-- What is said of all functions. -/
def sourceHeadings
    (config : CodeConfig)
    (wideWidths : List Nat)
    (definitions : Program.Definitions) :
    List Heading :=
  wideWidths.map (loadHeading config) ++
    (definitions.functions.map (fun (length, _) =>
        recognizerHeading config (config.lengthFunction length)) ++
      [recognizerHeading config config.functionName])

/-- What the text of the definitions defines, given the macros after it. -/
def sourceDefinitions
    (macros : List Macro)
    (config : CodeConfig)
    (wideWidths : List Nat)
    (definitions : Program.Definitions) :
    Source.Definitions :=
  ⟨macros, sourceFunctions config wideWidths definitions,
    sourceHeadings config wideWidths definitions⟩

/-! ## Single functions -/

theorem functionsFrom?_wordsPhrase
    (scope : List String)
    (head : List Atom)
    (names : List String)
    (next : Phrase) :
    Phrase.functionsFrom? scope head (wordsPhrase names next) =
      Phrase.functionsFrom? scope (head ++ names.map .word) next := by
  induction names generalizing head with
  | nil => simp [wordsPhrase]
  | cons name rest hypothesis =>
    rw [wordsPhrase, List.foldr_cons, ← wordsPhrase, Phrase.functionsFrom?,
      hypothesis, List.append_assoc]
    rfl

theorem functionsFrom?_loadPhrase
    (config : CodeConfig)
    {width : Nat}
    (wide : width ∈ [2, 4, 8])
    (next : Phrase) :
    Phrase.functionsFrom? [] [] (loadPhrase config (8 * width) next) =
      (Phrase.functionsFrom? [] [] next).map
        ((loadHeading config width, loadDefinition config width) :: ·) := by
  have copies : Phrase.copiedBits? (readType (8 * width)) = some (8 * width) := by
    have every : ∀ other ∈ [2, 4, 8],
        Phrase.copiedBits? (readType (8 * other)) = some (8 * other) := by
      decide
    exact every width wide
  have heading : Heading.ofAtoms? []
      [.word "static", .word "inline", .word (readType (8 * width)),
        .word (config.loadFunction (8 * width))] =
      some (loadHeading config width) := by
    rw [Heading.ofAtoms?, Result.ofWord, copies]
    rfl
  rw [loadPhrase, functionsFrom?_wordsPhrase]
  simp only [List.map_cons, List.map_nil, List.nil_append,
    Phrase.functionsFrom?, heading, pointerPhrase,
    wordsPhrase, List.foldr_cons, List.foldr_nil, Phrase.parameters?,
    Phrase.body?, copies]
  simp [loadDefinition, loadHeading]

/-- No code begins like the copying of memory. -/
theorem phrase_ne_memcpy
    (config : CodeConfig)
    (code : Code)
    (next : Phrase) :
    code.phrase config ≠ .atom (.word "memcpy") next := by
  cases code <;> simp [Code.phrase, unusedPhrase, answerPhrase]

/-- The body of a function that runs some code is a sequence. -/
theorem body?_phrase
    (config : CodeConfig)
    (code : Code)
    (result : Result) :
    Phrase.body? result (code.phrase config) =
      (code.phrase config).sequence?.map .code := by
  unfold Phrase.body?
  split
  · next written =>
    exfalso
    cases code with
    | nil => cases written
    | unused next => cases written
    | leave next => simp [Code.phrase] at written
    | switch subject body next => simp [Code.phrase] at written
    | constant chunk next =>
      unfold Code.phrase constantPhrase at written
      split at written <;> simp [placedPhrase] at written
    | answer label next =>
      have other := phrase_ne_memcpy config next
      unfold Code.phrase answerPhrase CodeConfig.enumeratorPhrase at written
      split at written <;> simp [other] at written
  · rfl

theorem functionsFrom?_lengthFunctionPhrase
    (config : CodeConfig)
    {length : Nat}
    {code : Code}
    (fits : code.Fits length 0)
    (next : Phrase) :
    Phrase.functionsFrom? (namespaces config) []
        (lengthFunctionPhrase config length code next) =
      (Phrase.functionsFrom? (namespaces config) [] next).map
        ((recognizerHeading config (config.lengthFunction length),
          lengthDefinition config length code) :: ·) := by
  have heading : Heading.ofAtoms? (namespaces config)
      (("static" :: returnWords config ++
        [config.lengthFunction length]).map .word) =
      some (recognizerHeading config (config.lengthFunction length)) := by
    unfold returnWords recognizerHeading resultType
    split <;> simp [Heading.ofAtoms?]
  have sequence := sequence?_phrase fits config
  rw [lengthFunctionPhrase, functionsFrom?_wordsPhrase, List.nil_append,
    Phrase.functionsFrom?, heading]
  simp [pointerPhrase, wordsPhrase, Phrase.parameters?, body?_phrase, sequence,
    lengthDefinition, recognizerHeading]

/-- The choice among the functions is read as such. -/
theorem sequenceFrom?_choicePhrase
    (config : CodeConfig)
    (fallback : String)
    (functions : List (Nat × Code)) :
    Phrase.sequenceFrom? none
        (choicePhrase config functions
          (.atom (.word "default") (.atom (.mark ':')
            (answerPhrase config fallback .nil)))) =
      some (choiceSequence config fallback functions) := by
  induction functions with
  | nil =>
    exact congrArg (Option.map Sequence.otherwise)
      (sequenceFrom?_answerPhrase config fallback .nil)
  | cons pair rest hypothesis =>
    obtain ⟨length, code⟩ := pair
    have called := congrArg (Option.map (Sequence.delegate
      (config.lengthFunction length) (.name "string"))) hypothesis
    exact congrArg (Option.map (Sequence.label (.numeral length false))) called

theorem functionsFrom?_entryFunctionPhrase
    (config : CodeConfig)
    (definitions : Program.Definitions) :
    Phrase.functionsFrom? (namespaces config) []
        (entryFunctionPhrase config definitions .nil) =
      some [(recognizerHeading config config.functionName,
        entryDefinition config definitions)] := by
  have choice := sequenceFrom?_choicePhrase config definitions.fallback
    definitions.functions
  have body : ∀ result, Phrase.body? result
      (entryBodyPhrase config definitions) =
        some (.code (entrySequence config definitions)) := by
    intro result
    unfold entryBodyPhrase entrySequence
    have subject : (Phrase.atom (.word "length") .nil).expression? =
        some (.name "length") := rfl
    cases definitions.functions.isEmpty with
    | true =>
      simp [Phrase.body?, unusedPhrase, Phrase.sequence?,
        Phrase.sequenceFrom?, subject, choice]
    | false =>
      simp [Phrase.body?, Phrase.sequence?, Phrase.sequenceFrom?, subject,
        choice]
  have heading : Heading.ofAtoms? (namespaces config)
      (((if config.isSplit then [] else ["static"]) ++ returnWords config ++
        [config.functionName]).map .word) =
      some (recognizerHeading config config.functionName) := by
    unfold returnWords recognizerHeading resultType
    split <;> split <;> simp [Heading.ofAtoms?]
  rw [entryFunctionPhrase, functionsFrom?_wordsPhrase, List.nil_append,
    Phrase.functionsFrom?, heading]
  simp [Phrase.functionsFrom?, pointerPhrase, wordsPhrase, Phrase.parameters?,
    body, entryDefinition, recognizerHeading]

/-! ## All functions -/

/-- A bracket behind the words that open it holds functions. -/
theorem functionsFrom?_curly
    {scope inner : List String}
    {head : List Atom}
    (opens : opened? head = some inner)
    (inside : Phrase) :
    Phrase.functionsFrom? scope head (.group .curly inside .nil) =
      Phrase.functionsFrom? (scope ++ inner) [] inside := by
  rw [Phrase.functionsFrom?, opens, Option.bind_some, Phrase.functionsFrom?]
  cases Phrase.functionsFrom? (scope ++ inner) [] inside <;> simp

theorem functionsFrom?_linkagePhrase
    (config : CodeConfig)
    (isCplusplus : Bool)
    (scope : List String)
    (inside : Phrase) :
    Phrase.functionsFrom? scope [] (linkagePhrase config isCplusplus inside) =
      Phrase.functionsFrom? scope [] inside := by
  unfold linkagePhrase
  split
  · have opens : opened? [.word "extern", .literal] = some [] := rfl
    have read := @functionsFrom?_curly scope [] _ opens inside
    rw [List.append_nil] at read
    exact read
  · rfl

/-- The atoms of the rest of a name in double colons. -/
def scopesAtoms (segments : List (List Char)) : List Atom :=
  segments.flatMap fun segment =>
    [.mark ':', .mark ':', .word (String.ofList segment)]

theorem functionsFrom?_scopesPhrase
    (scope : List String)
    (segments : List (List Char))
    (head : List Atom)
    (next : Phrase) :
    Phrase.functionsFrom? scope head (scopesPhrase segments next) =
      Phrase.functionsFrom? scope (head ++ scopesAtoms segments) next := by
  induction segments generalizing head with
  | nil => simp [scopesPhrase, scopesAtoms]
  | cons segment rest hypothesis =>
    simp [scopesPhrase, Phrase.functionsFrom?, hypothesis, scopesAtoms]

theorem path?_scopesAtoms (first : String) (segments : List (List Char)) :
    path? (.word first :: scopesAtoms segments) =
      some (first :: segments.map String.ofList) := by
  induction segments generalizing first with
  | nil => rfl
  | cons segment rest hypothesis =>
    have atoms : scopesAtoms (segment :: rest) =
        .mark ':' :: .mark ':' :: .word (String.ofList segment) ::
          scopesAtoms rest := rfl
    rw [atoms, path?, hypothesis]
    rfl

theorem functionsFrom?_namespacePhrase
    (config : CodeConfig)
    (inside : Phrase) :
    Phrase.functionsFrom? [] [] (namespacePhrase config inside) =
      Phrase.functionsFrom? (namespaces config) [] inside := by
  unfold namespacePhrase namespaces
  cases config.namespaceName with
  | none => rfl
  | some name =>
    dsimp only
    cases CodeConfig.segments name.toList with
    | nil => rfl
    | cons segment rest =>
      have opens : opened? (.word "namespace" ::
          .word (String.ofList segment) :: scopesAtoms rest) =
          some (String.ofList segment :: rest.map String.ofList) :=
        path?_scopesAtoms _ rest
      dsimp only
      rw [functionsFrom?_wordsPhrase, functionsFrom?_scopesPhrase]
      exact functionsFrom?_curly opens inside

/-- Functions in front of others are read one after another. -/
theorem functionsFrom?_foldr
    {ι : Type}
    {scope : List String}
    {phrase : ι → Phrase → Phrase}
    {function : ι → Heading × Function}
    {parts : List ι}
    (part_read : ∀ part ∈ parts, ∀ next,
      Phrase.functionsFrom? scope [] (phrase part next) =
        (Phrase.functionsFrom? scope [] next).map (function part :: ·))
    {next : Phrase}
    {functions : List (Heading × Function)}
    (next_read : Phrase.functionsFrom? scope [] next = some functions) :
    Phrase.functionsFrom? scope [] (parts.foldr phrase next) =
      some (parts.map function ++ functions) := by
  induction parts with
  | nil => exact next_read
  | cons part rest hypothesis =>
    rw [List.forall_mem_cons] at part_read
    rw [List.foldr_cons, part_read.1, hypothesis part_read.2]
    rfl

/-- The phrase of all definitions is read as their functions. -/
theorem functions?_definitionsPhrase
    (config : CodeConfig)
    (isCplusplus : Bool)
    {wideWidths : List Nat}
    {definitions : Program.Definitions}
    (fit : definitions.Fit wideWidths) :
    ∃ functions,
      (definitionsPhrase config isCplusplus wideWidths
        definitions).functions? = some functions ∧
      functions.map Prod.snd = sourceFunctions config wideWidths definitions ∧
      functions.map Prod.fst =
        sourceHeadings config wideWidths definitions := by
  have entry := functionsFrom?_entryFunctionPhrase config definitions
  rw [← functionsFrom?_linkagePhrase config isCplusplus] at entry
  have lengths := functionsFrom?_foldr
    (fun (pair : Nat × Code) listed => functionsFrom?_lengthFunctionPhrase
      config (fit.fits pair.1 pair.2 listed))
    entry
  rw [← functionsFrom?_namespacePhrase config] at lengths
  have all := functionsFrom?_foldr
    (fun width listed =>
      functionsFrom?_loadPhrase config (fit.mem_of_wide listed))
    lengths
  refine ⟨_, all, ?_, ?_⟩
  · simp [sourceFunctions, Function.comp_def]
  · simp [sourceHeadings, Function.comp_def]

end Program
end WordSwitch
