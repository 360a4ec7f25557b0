import WordSwitch.Proofs.Program.DefinitionText
import WordSwitch.Proofs.Source.Enumeration

/-!
# The text of the declarations

The declarations begin with the include guard, which defines a macro without a
body.  After the included headers, their lines leave the tokens of one
enumeration and of a prototype.  The prototype may mention the enumeration but
declares none, however the names are spelled.
-/

namespace WordSwitch

open Source

namespace Program

/-! ## Phrases -/

/-- The phrase of a value. -/
def valuePhrase : Int → Phrase → Phrase
  | .ofNat size, next => .atom (.numeral size false) next
  | .negSucc size, next =>
    .atom (.mark '-') (.atom (.numeral (size + 1) false) next)

/-- The phrase of some members. -/
def membersPhrase (members : List Enumerator) : Phrase :=
  members.foldr (fun member next =>
    .atom (.word member.label) (.atom (.mark '=')
      (valuePhrase member.value (.atom (.mark ',') next)))) .nil

/-- The words in front of the members. -/
def enumerationWords (config : CodeConfig) : List String :=
  if config.enumClass then ["enum", "class", config.enumName]
  else ["enum", config.enumName]

/-- The phrase of the prototype of the entry function. -/
def prototypePhrase (config : CodeConfig) : Phrase :=
  wordsPhrase ((if config.isSplit then [] else ["static"]) ++
      returnWords config ++ [config.functionName])
    (.group .round
      (pointerPhrase "string" (.atom (.mark ',')
        (wordsPhrase ["size_t", "length"] .nil)))
      (.atom (.mark ';') .nil))

/-- The phrase of all declarations. -/
def declarationsPhrase
    (config : CodeConfig)
    (isCplusplus : Bool)
    (members : List Enumerator) :
    Phrase :=
  namespacePhrase config
    (wordsPhrase (enumerationWords config)
      (.group .curly (membersPhrase members) (.atom (.mark ';')
        (linkagePhrase config isCplusplus (prototypePhrase config)))))

/-! ## What the phrases declare -/

@[simp] theorem members?_membersPhrase (members : List Enumerator) :
    (membersPhrase members).members? = some members := by
  induction members with
  | nil => rfl
  | cons member rest hypothesis =>
    obtain ⟨label, value⟩ := member
    rw [membersPhrase, List.foldr_cons, ← membersPhrase]
    cases value with
    | ofNat size =>
      rw [valuePhrase, Phrase.members?, hypothesis]
      rfl
    | negSucc size =>
      rw [valuePhrase, Phrase.members?, hypothesis]
      rfl

theorem wordsPhrase_cons (name : String) (names : List String) (next : Phrase) :
    wordsPhrase (name :: names) next =
      .atom (.word name) (wordsPhrase names next) := rfl

/-- Words in front of parameters declare no enumeration. -/
theorem enumerations?_signature
    (names : List String)
    (parameters next : Phrase) :
    (wordsPhrase names (.group .round parameters next)).enumerations? =
      next.enumerations? := by
  have apart : ∀ others inside after,
      wordsPhrase others (.group .round parameters next) ≠
        .group .curly inside after := by
    intro others inside after equal
    cases others <;> cases equal
  induction names with
  | nil =>
    have skipped : (Phrase.group .round parameters next).enumerations? =
        next.enumerations? := by
      rw [Phrase.enumerations?]
      simp
    exact skipped
  | cons name rest hypothesis =>
    rw [wordsPhrase_cons, Phrase.enumerations?, hypothesis]
    · intro other inside after _ equal
      rcases rest with _ | ⟨_, _ | ⟨_, others⟩⟩
      · cases equal
      · cases equal
      · injection equal with _ equal
        injection equal with _ equal
        exact apart others _ _ equal
    · intro other inside after _ equal
      rcases rest with _ | ⟨_, others⟩
      · cases equal
      · injection equal with _ equal
        exact apart others _ _ equal

/-- A declaration of an enumeration declares it. -/
theorem enumerations?_enumerationWords
    (config : CodeConfig)
    (members : List Enumerator)
    (next : Phrase) :
    (wordsPhrase (enumerationWords config)
        (.group .curly (membersPhrase members)
          (.atom (.mark ';') next))).enumerations? =
      next.enumerations?.map
        (⟨config.enumName, config.enumClass, members⟩ :: ·) := by
  unfold enumerationWords
  cases config.enumClass with
  | true =>
    simp [wordsPhrase, Phrase.enumerations?]
  | false =>
    simp [wordsPhrase, Phrase.enumerations?]

theorem enumerations?_linkagePhrase
    (config : CodeConfig)
    (isCplusplus : Bool)
    (inside : Phrase) :
    (linkagePhrase config isCplusplus inside).enumerations? =
      inside.enumerations? := by
  unfold linkagePhrase
  split
  · cases found : inside.enumerations? <;>
      simp [Phrase.enumerations?, found]
  · rfl

theorem enumerations?_scopesPhrase
    (segments : List (List Char))
    (inside : Phrase) :
    (scopesPhrase segments (.group .curly inside .nil)).enumerations? =
      inside.enumerations? := by
  have grouped : (Phrase.group .curly inside .nil).enumerations? =
      inside.enumerations? := by
    rw [Phrase.enumerations?, Phrase.enumerations?]
    cases inside.enumerations? <;> simp
  induction segments with
  | nil => exact grouped
  | cons segment rest hypothesis =>
    rw [scopesPhrase, Phrase.enumerations?_mark, Phrase.enumerations?_mark,
      Phrase.enumerations?_word, hypothesis]
    intro other after equal
    cases rest <;> cases equal

/-- A namespace declares what is declared inside. -/
theorem enumerations?_namespacePhrase
    (config : CodeConfig)
    (inside : Phrase) :
    (namespacePhrase config inside).enumerations? = inside.enumerations? := by
  unfold namespacePhrase
  split
  · rfl
  · split
    · rfl
    · next segment rest _ =>
      have scopes := enumerations?_scopesPhrase rest inside
      have word : (Phrase.atom (.word (String.ofList segment))
          (scopesPhrase rest (.group .curly inside .nil))).enumerations? =
            inside.enumerations? := by
        rw [Phrase.enumerations?_word, scopes]
        intro other after equal
        cases rest <;> cases equal
      rw [wordsPhrase_cons, wordsPhrase_cons, ← word, wordsPhrase,
        List.foldr_nil, Phrase.enumerations?]
      · simp
      · simp

/-- All declarations declare one enumeration. -/
theorem enumerations?_declarationsPhrase
    (config : CodeConfig)
    (isCplusplus : Bool)
    (members : List Enumerator) :
    (declarationsPhrase config isCplusplus members).enumerations? =
      some [⟨config.enumName, config.enumClass, members⟩] := by
  have prototype : (prototypePhrase config).enumerations? = some [] := by
    rw [prototypePhrase, enumerations?_signature, Phrase.enumerations?_mark,
      Phrase.enumerations?]
  rw [declarationsPhrase, enumerations?_namespacePhrase,
    enumerations?_enumerationWords, enumerations?_linkagePhrase, prototype]
  rfl

/-! ## Lines -/

/-- A value in front of something that does not continue its digits. -/
theorem lexes_value
    (value : Int)
    {text : List Char}
    {phrase : Phrase}
    (ends : Lexes.endsRun text = true)
    (lexes : Lexes text phrase.tokens) :
    Lexes ((toString value).toList ++ text)
      (valuePhrase value phrase).tokens := by
  cases value with
  | ofNat size => exact Lexes.number_append ends lexes
  | negSucc size =>
    have minus : Lexes "-".toList [.atom (.mark '-')] :=
      lexes_of_tokenLines rfl rfl
    have written : (toString (Int.negSucc size)).toList =
        "-".toList ++ (toString (size + 1)).toList := by
      rw [← String.toList_append]
      rfl
    rw [written, List.append_assoc]
    exact minus.append (Lexes.number_append ends lexes)

theorem lexesLine_enumerator
    {label : String}
    (isName : IsName label)
    (value : Int) :
    LexesLine (enumeratorLine label value).toList
      (membersPhrase [⟨label, value⟩]).tokens := by
  have comma : Lexes ",".toList (Phrase.atom (.mark ',') .nil).tokens :=
    lexes_of_tokenLines rfl rfl
  have equals : Lexes " = ".toList [.atom (.mark '=')] :=
    lexes_of_tokenLines rfl rfl
  have assigned := Lexes.name_append isName rfl
    (equals.append (lexes_value value rfl comma))
  simpa [enumeratorLine, membersPhrase, Phrase.tokens] using
    lexesLine_indent 1 assigned

theorem valuePhrase_append
    (value : Int)
    (next after : Phrase) :
    (valuePhrase value next).append after =
      valuePhrase value (next.append after) := by
  cases value <;> rfl

/-- The lines of members leave their tokens. -/
theorem yields_members
    {members : List Enumerator}
    (named : ∀ member ∈ members, IsName member.label)
    (environment : Environment)
    (macros : List Macro) :
    Yields environment macros
      (members.map fun member => enumeratorLine member.label member.value)
      macros (membersPhrase members).tokens := by
  induction members with
  | nil => exact Yields.nil
  | cons member rest hypothesis =>
    rw [List.forall_mem_cons] at named
    have line := lexesLine_enumerator named.1 member.value
    have whole := Yields.cons line
      (by simp [IsPlain, membersPhrase, Phrase.tokens]) (hypothesis named.2)
    have phrase : membersPhrase (member :: rest) =
        (membersPhrase [member]).append (membersPhrase rest) := by
      simp [membersPhrase, Phrase.append, valuePhrase_append]
    rw [phrase, Phrase.tokens_append]
    exact whole

/-- The line that opens the enumeration. -/
def enumerationLine (config : CodeConfig) : String :=
  let keyword := if config.enumClass then "enum class" else "enum"
  s!"{keyword} {config.enumName} \x7b"

theorem lexesLine_enumeration
    {config : CodeConfig}
    (named : config.IsNamed) :
    LexesLine (enumerationLine config).toList
      ((enumerationWords config).map (fun name => Token.atom (.word name)) ++
        [.opening .curly]) := by
  have opens : Lexes " \x7b".toList [.opening .curly] :=
    lexes_of_tokenLines rfl rfl
  have name := Lexes.name_append named.enumeration rfl opens
  unfold enumerationLine enumerationWords
  cases config.enumClass with
  | true =>
    have keyword : Lexes "enum class ".toList
        [.atom (.word "enum"), .atom (.word "class")] :=
      lexes_of_tokenLines rfl rfl
    simpa using (keyword.append name).line
  | false =>
    have keyword : Lexes "enum ".toList [.atom (.word "enum")] :=
      lexes_of_tokenLines rfl rfl
    simpa using (keyword.append name).line

theorem lexesLine_prototype
    {config : CodeConfig}
    (named : config.IsNamed) :
    LexesLine s!"{config.entrySignature};".toList
      (prototypePhrase config).tokens := by
  have semicolon : Lexes ";".toList [.atom (.mark ';')] :=
    lexes_of_tokenLines rfl rfl
  have line := ((lexes_entrySignature named).append semicolon).line
  simpa [prototypePhrase, tokens_wordsPhrase, Phrase.tokens] using line

/-- The lines of the enumeration and of the prototype. -/
def declaredLines (config : CodeConfig) (members : List Enumerator) : Lines :=
  config.insideNamespace
    ([enumerationLine config] ++
      members.map (fun member => enumeratorLine member.label member.value) ++
      ["\x7d;"] ++ config.insideLinkage [s!"{config.entrySignature};"])

/-- The lines of the declarations leave the tokens of their phrase. -/
theorem yields_declaredLines
    {config : CodeConfig}
    (named : config.IsNamed)
    {members : List Enumerator}
    (labels : ∀ member ∈ members, IsName member.label)
    {macros : List Macro}
    (own : AreOwn macros)
    (environment : Environment) :
    Yields environment macros (declaredLines config members) macros
      (declarationsPhrase config environment.isCplusplus members).tokens := by
  have closes : LexesLine "\x7d;".toList
      [.closing .curly, .atom (.mark ';')] :=
    lexesLine_of_tokenLines rfl rfl
  have prototype_plain : IsPlain (prototypePhrase config).tokens := by
    unfold prototypePhrase returnWords
    split <;> split <;> simp [IsPlain, tokens_wordsPhrase]
  have prototype := yields_insideLinkage config environment own
    (Yields.line (lexesLine_prototype named) prototype_plain)
  have opening := lexesLine_enumeration named
  have opening_plain : IsPlain ((enumerationWords config).map
      (fun name => Token.atom (.word name)) ++ [.opening .curly]) := by
    unfold enumerationWords
    split <;> simp [IsPlain]
  have inside := Yields.cons opening opening_plain
    ((yields_members labels environment macros).append
      (Yields.cons closes (by decide) prototype))
  apply yields_insideNamespace named
  simpa [tokens_wordsPhrase, Phrase.tokens] using inside

/-! ## The text -/

/-- The include guard and the included headers. -/
def openingLines (config : CodeConfig) : Lines :=
  [s!"#ifndef {guardMacro config}", s!"#define {guardMacro config}",
    "#include <stddef.h>", "#include <stdint.h>"] ++
    config.includes.map includeLine

/-- The text of the declarations after the include guard and the included
headers. -/
def declaredText (config : CodeConfig) (members : List Enumerator) : String :=
  Lines.text (declaredLines config members ++
    if config.isSplit then CodeConfig.guardEnd else [])

/-- The counter as a member after those of a lexicon. -/
def counters (config : CodeConfig) (lexicon : Lexicon) : List Enumerator :=
  config.counterName.toList.map (⟨·, lexicon.largestValue + 1⟩)

/-- If the counter has a value, the declarations are written down, with the
counter as their last member. -/
theorem declarations_of_units?
    {config : CodeConfig}
    {lexicon : Lexicon}
    (countable : config.counterName.isSome = true →
      lexicon.largestValue < maxValue)
    (recognizer : Recognizer) :
    ∃ units, units? config recognizer lexicon = some units ∧
      units.declarations = Lines.text (openingLines config) ++
        declaredText config
          (lexicon.enumeration ++ counters config lexicon) := by
  have counter_lines : counterLines? config lexicon =
      some ((counters config lexicon).map fun member =>
        enumeratorLine member.label member.value) := by
    unfold counterLines? counters
    cases name_eq : config.counterName with
    | none => rfl
    | some name =>
      have below := countable (by rw [name_eq]; rfl)
      simp [nextValue?, below]
  refine ⟨_, by rw [units?, declarationLines?, counter_lines]; rfl, ?_⟩
  rw [declaredText, ← Lines.text_append]
  simp [openingLines, guardMacro, declaredLines, enumerationLine,
    prototypeLines]

/-! ## What the declarations leave -/

end Program
end WordSwitch
