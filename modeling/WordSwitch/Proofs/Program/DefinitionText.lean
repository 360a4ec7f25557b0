import WordSwitch.Proofs.Program.FunctionText
import WordSwitch.Proofs.Program.Terms

/-!
# The text of all definitions

The directives in front of the functions define the macro that puts bytes in
their places for the order in which the platform keeps them.  Linkage and
namespace are brackets around functions.
-/

namespace WordSwitch

open Source

namespace CodeConfig

/-- The conditions that are open where the definitions begin.  The include guard
is open if the declarations stand in front of them. -/
def openConditions (config : CodeConfig) : List Bool :=
  if config.isSplit then [] else [true]

end CodeConfig

namespace Program

/-! ## The order of bytes -/

/-- The lines in front of the functions that read several bytes. -/
def byteOrderLines : Lines :=
  ["#include <string.h>", "#ifndef TRIE_HASH_ONECHAR",
    "#if defined(__BYTE_ORDER__) && " ++
      "__BYTE_ORDER__ == __ORDER_BIG_ENDIAN__",
    "#define TRIE_HASH_ONECHAR(c, s, l) " ++
      "(((uint64_t)(unsigned char)(c)) << ((l) - 8 - (s)))",
    "#else",
    "#define TRIE_HASH_ONECHAR(c, s, l) " ++
      "(((uint64_t)(unsigned char)(c)) << (s))",
    "#endif", "#endif"]

/-- The phrase of the definition of the macro. -/
def placeDefinitionPhrase (isBigEndian : Bool) : Phrase :=
  .atom (.word placeMacro) (.group .round
    (.atom (.word "c") (.atom (.mark ',') (.atom (.word "s")
      (.atom (.mark ',') (.atom (.word "l") .nil)))))
    (.group .round
      (.group .round
        (.group .round (.atom (.word "uint64_t") .nil)
          (.group .round (wordsPhrase ["unsigned", "char"] .nil)
            (.group .round (.atom (.word "c") .nil) .nil)))
        (.atom (.mark '<') (.atom (.mark '<') (.group .round
          (if isBigEndian then
            .group .round (.atom (.word "l") .nil) (.atom (.mark '-')
              (.atom (.numeral 8 false) (.atom (.mark '-')
                (.group .round (.atom (.word "s") .nil) .nil))))
          else .atom (.word "s") .nil) .nil)))) .nil))

theorem macro?_placeDefinitionPhrase (isBigEndian : Bool) :
    (placeDefinitionPhrase isBigEndian).macro? =
      some (placeDefinition isBigEndian) := by
  cases isBigEndian <;> rfl

/-- The phrase of the condition for the big-endian order. -/
def bigEndianPhrase : Phrase :=
  .atom (.word "defined") (.group .round (.atom (.word "__BYTE_ORDER__") .nil)
    (.atom (.mark '&') (.atom (.mark '&')
      (.atom (.word "__BYTE_ORDER__") (.atom (.mark '=') (.atom (.mark '=')
        (.atom (.word "__ORDER_BIG_ENDIAN__") .nil)))))))

/-- Macros that the generated code defines are named after what it is for. -/
def AreOwn (macros : List Macro) : Prop :=
  ∀ definition ∈ macros, "TRIE_HASH_".toList <+: definition.name.toList

theorem areOwn_nil : AreOwn [] := fun _ listed => nomatch listed

/-- Whether a macro with another name is defined is told by the environment. -/
theorem isDefined_of_areOwn
    {macros : List Macro}
    (own : AreOwn macros)
    {name : String}
    (other : ¬ "TRIE_HASH_".toList <+: name.toList)
    (environment : Environment) :
    isDefined environment macros name =
      environment.predefinedMacros.contains name := by
  have absent : macros.any (·.name == name) = false := by
    rw [List.any_eq_false]
    intro definition listed same
    exact other (eq_of_beq same ▸ own definition listed)
  rw [isDefined, absent, Bool.or_false]

/-- No predefined macro puts a byte in its place. -/
theorem isDefined_placeMacro
    (environment : Environment)
    (macros : List Macro) :
    isDefined environment macros placeMacro =
      macros.any (·.name == placeMacro) := by
  have absent : environment.predefinedMacros.contains placeMacro = false := by
    obtain ⟨byteOrder, isCharSigned, isCplusplus⟩ := environment
    cases byteOrder <;> cases isCplusplus <;> rfl
  rw [isDefined, absent, Bool.false_or]

theorem condition?_bigEndianPhrase
    {macros : List Macro}
    (own : AreOwn macros)
    (environment : Environment) :
    bigEndianPhrase.condition? environment macros =
      some environment.platform.isBigEndian := by
  have other : ¬ "TRIE_HASH_".toList <+: "__BYTE_ORDER__".toList := by decide
  have told := isDefined_of_areOwn own other environment
  rw [bigEndianPhrase, Phrase.condition?, told]
  obtain ⟨byteOrder, isCharSigned, isCplusplus⟩ := environment
  cases byteOrder <;> cases isCplusplus <;> rfl

/-- The tokens of the define directive for an order of bytes. -/
def defineTokens (isBigEndian : Bool) : List Token :=
  .atom (.mark '#') :: .atom (.word "define") ::
    (placeDefinitionPhrase isBigEndian).tokens

theorem preprocess_define
    (environment : Environment)
    (conditions : List Bool)
    (macros : List Macro)
    (isBigEndian : Bool)
    (rest : List (List Token)) :
    preprocess environment conditions macros (defineTokens isBigEndian :: rest) =
      preprocess environment conditions
        (if conditions.all id then placeDefinition isBigEndian :: macros
          else macros) rest := by
  rw [defineTokens, preprocess]
  split
  · rw [Phrase.ofTokens?_tokens, Option.bind_some,
      macro?_placeDefinitionPhrase]
    rfl
  · rfl

theorem lexesLine_defineBig :
    LexesLine ("#define TRIE_HASH_ONECHAR(c, s, l) " ++
      "(((uint64_t)(unsigned char)(c)) << ((l) - 8 - (s)))").toList
      (defineTokens true) :=
  lexesLine_of_tokenLines rfl rfl

theorem lexesLine_defineLittle :
    LexesLine ("#define TRIE_HASH_ONECHAR(c, s, l) " ++
      "(((uint64_t)(unsigned char)(c)) << (s))").toList
      (defineTokens false) :=
  lexesLine_of_tokenLines rfl rfl

theorem tokenLines_byteOrderLines (rest : List Char) :
    tokenLines ((Lines.text byteOrderLines).toList ++ rest) =
      [[.atom (.mark '#'), .atom (.word "include"),
          .atom (.header "<string.h>".toList)],
        [.atom (.mark '#'), .atom (.word "ifndef"), .atom (.word placeMacro)],
        .atom (.mark '#') :: .atom (.word "if") :: bigEndianPhrase.tokens,
        defineTokens true,
        [.atom (.mark '#'), .atom (.word "else")],
        defineTokens false,
        [.atom (.mark '#'), .atom (.word "endif")],
        [.atom (.mark '#'), .atom (.word "endif")]] ++ tokenLines rest := by
  have ends : LexesLine "#endif".toList
      [.atom (.mark '#'), .atom (.word "endif")] :=
    lexesLine_of_tokenLines rfl rfl
  apply tokenLines_text
  refine .cons ?includes (.cons ?guards (.cons ?asks
    (.cons lexesLine_defineBig (.cons ?otherwise
      (.cons lexesLine_defineLittle (.cons ends (.cons ends .nil)))))))
  case includes =>
    exact lexesLine_of_tokenLines rfl rfl
  case guards =>
    exact lexesLine_of_tokenLines rfl rfl
  case asks =>
    exact lexesLine_of_tokenLines rfl rfl
  case otherwise =>
    exact lexesLine_of_tokenLines rfl rfl

/-- The lines in front of the functions define the macro, unless there is one of
that name. -/
theorem yields_byteOrderLines
    {before : List Macro}
    (own : AreOwn before)
    (environment : Environment) :
    Yields environment before byteOrderLines
      (if before.any (·.name == placeMacro) then before
        else placeDefinition environment.platform.isBigEndian :: before) [] := by
  intro conditions hold rest
  rw [tokenLines_byteOrderLines]
  simp only [List.cons_append, List.nil_append, preprocess,
    isDefined_placeMacro, preprocess_define, Phrase.ofTokens?_tokens,
    Option.bind_some, condition?_bigEndianPhrase own, List.all_cons, hold]
  cases before.any (·.name == placeMacro) <;>
    cases environment.platform.isBigEndian <;> simp

/-- What several bytes at once are read with. -/
theorem yields_wideReadLines
    {config : CodeConfig}
    (named : config.IsNamed)
    {before : List Macro}
    (own : AreOwn before)
    (environment : Environment)
    (wideWidths : List Nat) :
    Yields environment before (wideReadLines config wideWidths)
      (placeMacros environment before wideWidths)
      (wideWidths.flatMap fun width =>
        (loadPhrase config (8 * width) .nil).tokens) := by
  unfold placeMacros
  cases empty : wideWidths.isEmpty with
  | true =>
    rw [List.isEmpty_iff.mp empty]
    exact Yields.nil
  | false =>
    have loads := Yields.flatMap fun width (_ : width ∈ wideWidths) =>
      yields_loadLines named environment
        (if before.any (·.name == placeMacro) then before
          else placeDefinition environment.platform.isBigEndian :: before) width
    have lines := (yields_byteOrderLines own environment).append loads
    simpa [wideReadLines, empty, byteOrderLines] using lines

/-- The macros after the definitions are own ones if those before are. -/
theorem areOwn_placeMacros
    {before : List Macro}
    (own : AreOwn before)
    (environment : Environment)
    (wideWidths : List Nat) :
    AreOwn (placeMacros environment before wideWidths) := by
  unfold placeMacros
  split
  · exact own
  · intro definition listed
    rcases List.mem_cons.mp listed with rfl | inBefore
    · rw [placeDefinition, Macro.name]
      decide
    · exact own definition inBefore

/-! ## Linkage -/

/-- Own macros do not tell the language. -/
theorem isDefined_cplusplus
    {macros : List Macro}
    (own : AreOwn macros)
    (environment : Environment) :
    isDefined environment macros "__cplusplus" = environment.isCplusplus := by
  rw [isDefined_of_areOwn own (by decide)]
  obtain ⟨byteOrder, isCharSigned, isCplusplus⟩ := environment
  cases byteOrder <;> cases isCplusplus <;> rfl

/-- Lines with C linkage. -/
theorem yields_insideLinkage
    (config : CodeConfig)
    (environment : Environment)
    {macros : List Macro}
    (own : AreOwn macros)
    {lines : Lines}
    {inside : Phrase}
    (yields : Yields environment macros lines macros inside.tokens) :
    Yields environment macros (config.insideLinkage lines) macros
      (linkagePhrase config environment.isCplusplus inside).tokens := by
  unfold CodeConfig.insideLinkage linkagePhrase
  cases config.externC with
  | false => exact yields
  | true =>
    have directive : LexesLine "#ifdef __cplusplus".toList
        [.atom (.mark '#'), .atom (.word "ifdef"),
          .atom (.word "__cplusplus")] :=
      lexesLine_of_tokenLines rfl rfl
    have opens : LexesLine "extern \"C\" \x7b".toList
        [.atom (.word "extern"), .atom .literal, .opening .curly] :=
      lexesLine_of_tokenLines rfl rfl
    have whole := (Yields.ifDefined directive opens (by decide)).append
      (yields.append (Yields.ifDefined directive lexesLine_closing (by decide)))
    rw [isDefined_cplusplus own] at whole
    cases language : environment.isCplusplus with
    | true =>
      rw [language] at whole
      simpa [Phrase.tokens] using whole
    | false =>
      rw [language] at whole
      simpa using whole

/-! ## Namespaces -/

/-- A name is its segments with double colons between them. -/
theorem exists_segments (name : List Char) :
    ∃ first rest, CodeConfig.segments name = first :: rest ∧
      name = first ++ rest.flatMap (fun segment => ':' :: ':' :: segment) := by
  induction name using CodeConfig.segments.induct with
  | case1 => exact ⟨[], [], rfl, rfl⟩
  | case2 rest hypothesis =>
    obtain ⟨first, others, segments_eq, rest_eq⟩ := hypothesis
    refine ⟨[], first :: others, ?_, ?_⟩
    · rw [CodeConfig.segments, segments_eq]
    · rw [List.nil_append, List.flatMap_cons, List.cons_append,
        List.cons_append, ← rest_eq]
  | case3 char rest single nothing hypothesis =>
    obtain ⟨first, others, segments_eq, _⟩ := hypothesis
    rw [nothing] at segments_eq
    cases segments_eq
  | case4 char rest single segment others equal hypothesis =>
    obtain ⟨first, others', segments_eq, rest_eq⟩ := hypothesis
    rw [equal] at segments_eq
    obtain ⟨rfl, rfl⟩ := List.cons.inj segments_eq
    refine ⟨char :: segment, others, ?_, ?_⟩
    · rw [CodeConfig.segments, equal]
      exact single
    · rw [List.cons_append, ← rest_eq]

theorem scopesPhrase_append
    (segments : List (List Char))
    (next after : Phrase) :
    (scopesPhrase segments next).append after =
      scopesPhrase segments (next.append after) := by
  induction segments with
  | nil => rfl
  | cons segment rest hypothesis =>
    simp only [scopesPhrase, Phrase.append, hypothesis]

/-- The rest of a name in double colons. -/
theorem lexes_scopes
    {segments : List (List Char)}
    (spell : ∀ segment ∈ segments, Label.spellsIdentifier segment = true)
    {text : List Char}
    {tokens : List Token}
    (ends : Lexes.endsRun text = true)
    (lexes : Lexes text tokens) :
    Lexes.endsRun
        (segments.flatMap (fun segment => ':' :: ':' :: segment) ++ text) =
      true ∧
    Lexes (segments.flatMap (fun segment => ':' :: ':' :: segment) ++ text)
      ((scopesPhrase segments .nil).tokens ++ tokens) := by
  induction segments with
  | nil => exact ⟨ends, lexes⟩
  | cons segment rest hypothesis =>
    rw [List.forall_mem_cons] at spell
    obtain ⟨later_ends, later⟩ := hypothesis spell.2
    have colons : Lexes "::".toList [.atom (.mark ':'), .atom (.mark ':')] :=
      lexes_of_tokenLines rfl rfl
    have name := Lexes.name_append (isName_of_spellsIdentifier spell.1)
      later_ends later
    have whole := colons.append name
    refine ⟨rfl, ?_⟩
    simpa [scopesPhrase, Phrase.tokens] using whole

/-- The phrase of the namespace in front of what it holds. -/
def namespaceOpening (first : List Char) (rest : List (List Char)) : Phrase :=
  wordsPhrase ["namespace", String.ofList first] (scopesPhrase rest .nil)

theorem lexesLine_namespace
    {name : String}
    {first : List Char}
    {rest : List (List Char)}
    (spell : ∀ segment ∈ first :: rest, Label.spellsIdentifier segment = true)
    (name_eq : name.toList =
      first ++ rest.flatMap (fun segment => ':' :: ':' :: segment)) :
    LexesLine s!"namespace {name} \x7b".toList
      ((namespaceOpening first rest).tokens ++ [.opening .curly]) := by
  rw [List.forall_mem_cons] at spell
  have keyword : Lexes "namespace ".toList [.atom (.word "namespace")] :=
    lexes_of_tokenLines rfl rfl
  have opens : Lexes " \x7b".toList [.opening .curly] :=
    lexes_of_tokenLines rfl rfl
  obtain ⟨ends, scopes⟩ := lexes_scopes spell.2 rfl opens
  have whole := keyword.append
    (Lexes.name_append (isName_of_spellsIdentifier spell.1) ends scopes)
  simpa [name_eq, namespaceOpening, tokens_wordsPhrase] using whole.line

theorem not_mem_of_spellsIdentifier
    {chars : List Char}
    (spells : Label.spellsIdentifier chars = true)
    {char : Char}
    (notLater : Label.isLater char = false) :
    char ∉ chars := by
  intro present
  have later := Label.isLater_of_spellsIdentifier spells char present
  exact Bool.false_ne_true (notLater.symm.trans later)

/-- The end of the namespace, with a comment. -/
theorem lexesLine_namespaceEnd
    {name : String}
    (oneLine : '\n' ∉ name.toList)
    (joinsNone : '\\' ∉ name.toList) :
    LexesLine s!"\x7d // namespace {name}".toList [.closing .curly] := by
  have text_eq : s!"\x7d // namespace {name}".toList =
      "\x7d //".toList ++ (" namespace ".toList ++ name.toList) := by
    simp
  have comment : (" namespace ".toList ++ name.toList).getLast? ≠ some '\\' := by
    intro last
    rcases List.mem_append.mp (List.mem_of_getLast? last) with inMark | inName
    · revert inMark
      decide
    · exact joinsNone inName
  rw [text_eq]
  refine ⟨?oneLine, ofLine_of_not_mem ?gives (by decide)⟩
  case oneLine =>
    simp [oneLine]
  case gives =>
    have lexemes : Lexeme.ofLine .between
        ("\x7d //".toList ++ (" namespace ".toList ++ name.toList)) =
        .mark '\x7d' ::
          Lexeme.ofComment ('/' :: (" namespace ".toList ++ name.toList)) := rfl
    have written : Token.written
        ("\x7d //".toList ++ (" namespace ".toList ++ name.toList)) =
        (Lexeme.ofLine .between ("\x7d //".toList ++
          (" namespace ".toList ++ name.toList))).map Token.ofLexeme := rfl
    rw [written, lexemes, Lexeme.ofComment, List.getLast?_cons_of_ne_nil
      (by simp), if_neg comment]
    rfl

/-- The line that opens a namespace is no directive. -/
theorem isPlain_namespaceOpening
    (first : List Char)
    (rest : List (List Char)) :
    IsPlain ((namespaceOpening first rest).tokens ++ [.opening .curly]) := by
  simp [IsPlain, namespaceOpening, tokens_wordsPhrase]

/-- The lines around a namespace, by its segments. -/
theorem exists_lexesLine_namespace
    {config : CodeConfig}
    (named : config.IsNamed)
    {name : String}
    (name_eq : config.namespaceName = some name) :
    ∃ first rest, CodeConfig.segments name.toList = first :: rest ∧
      LexesLine s!"namespace {name} \x7b".toList
        ((namespaceOpening first rest).tokens ++ [.opening .curly]) ∧
      LexesLine s!"\x7d // namespace {name}".toList [.closing .curly] := by
  obtain ⟨first, rest, segments_eq, text_eq⟩ := exists_segments name.toList
  have name_checked : CodeConfig.checkNamespace name = .ok () := by
    have checked := named.namespaces
    rw [name_eq] at checked
    exact checked
  have spell : ∀ segment ∈ first :: rest,
      Label.spellsIdentifier segment = true := by
    rw [CodeConfig.checkNamespace] at name_checked
    split at name_checked
    · next all =>
      rw [segments_eq] at all
      exact List.all_eq_true.mp all
    · cases name_checked
  have absent : ∀ char : Char, Label.isLater char = false → char ≠ ':' →
      char ∉ name.toList := by
    intro char notLater notColon
    have inNone := fun segment listed =>
      not_mem_of_spellsIdentifier (spell segment listed) notLater
    rw [text_eq, List.mem_append, List.mem_flatMap, not_or]
    refine ⟨inNone first List.mem_cons_self, ?_⟩
    rintro ⟨segment, listed, present⟩
    simp [notColon, inNone segment (List.mem_cons_of_mem first listed)]
      at present
  exact ⟨first, rest, segments_eq, lexesLine_namespace spell text_eq,
    lexesLine_namespaceEnd (absent '\n' (by decide) (by decide))
      (absent '\\' (by decide) (by decide))⟩

/-- Lines in the namespace. -/
theorem yields_insideNamespace
    {config : CodeConfig}
    (named : config.IsNamed)
    {environment : Environment}
    {macros : List Macro}
    {lines : Lines}
    {inside : Phrase}
    (yields : Yields environment macros lines macros inside.tokens) :
    Yields environment macros (config.insideNamespace lines) macros
      (namespacePhrase config inside).tokens := by
  unfold CodeConfig.insideNamespace namespacePhrase
  cases name_eq : config.namespaceName with
  | none => exact yields
  | some name =>
    obtain ⟨first, rest, segments_eq, opening, closing⟩ :=
      exists_lexesLine_namespace named name_eq
    have whole := (Yields.cons opening (isPlain_namespaceOpening first rest)
      yields).append (Yields.line closing (by decide))
    have phrase := scopesPhrase_append rest .nil (.group .curly inside .nil)
    rw [Phrase.append] at phrase
    simp only [segments_eq]
    rw [← phrase]
    simpa [namespaceOpening, tokens_wordsPhrase, Phrase.tokens] using whole

/-! ## All definitions -/

/-- The tokens of phrases that stand one in front of the other. -/
theorem tokens_foldr
    {ι : Type}
    {phrase : ι → Phrase → Phrase}
    (phrase_append : ∀ part next,
      phrase part next = (phrase part .nil).append next)
    (parts : List ι)
    (next : Phrase) :
    (parts.foldr phrase next).tokens =
      (parts.flatMap fun part => (phrase part .nil).tokens) ++ next.tokens := by
  induction parts with
  | nil => rfl
  | cons part rest hypothesis =>
    rw [List.foldr_cons, phrase_append, Phrase.tokens_append, hypothesis,
      List.flatMap_cons, List.append_assoc]

theorem wordsPhrase_append
    (names : List String)
    (next after : Phrase) :
    (wordsPhrase names next).append after =
      wordsPhrase names (next.append after) := by
  induction names with
  | nil => rfl
  | cons name rest hypothesis =>
    rw [wordsPhrase, List.foldr_cons, ← wordsPhrase, Phrase.append, hypothesis]
    rfl

/-- The lines of the definitions, without those that another text brings. -/
def bodyLines
    (config : CodeConfig)
    (wideWidths : List Nat)
    (definitions : Program.Definitions) :
    Lines :=
  wideReadLines config wideWidths ++
    config.insideNamespace
      (definitions.functions.flatMap (fun (length, code) =>
          lengthFunctionLines config length code) ++
        config.insideLinkage (entryFunctionLines config definitions))

/-- The lines of the definitions leave the tokens of their phrase. -/
theorem yields_bodyLines
    {config : CodeConfig}
    (named : config.IsNamed)
    {wideWidths : List Nat}
    {definitions : Program.Definitions}
    (fit : definitions.Fit wideWidths)
    {before : List Macro}
    (own : AreOwn before)
    (environment : Environment) :
    Yields environment before (bodyLines config wideWidths definitions)
      (placeMacros environment before wideWidths)
      (definitionsPhrase config environment.isCplusplus wideWidths
        definitions).tokens := by
  have entry := yields_insideLinkage config environment
    (areOwn_placeMacros own environment wideWidths)
    (yields_entryFunctionLines named fit.fallback environment
      (placeMacros environment before wideWidths))
  have functions := Yields.flatMap fun (pair : Nat × Code)
      (listed : pair ∈ definitions.functions) =>
    yields_lengthFunctionLines named (fit.fits pair.1 pair.2 listed) environment
      (placeMacros environment before wideWidths)
  have inside := functions.append entry
  rw [← tokens_foldr (fun pair next => by
    simp only [lengthFunctionPhrase, wordsPhrase_append, Phrase.append])]
    at inside
  have whole := (yields_wideReadLines named own environment wideWidths).append
    (yields_insideNamespace named inside)
  rw [← tokens_foldr (fun width next => by
    simp only [loadPhrase, wordsPhrase_append, Phrase.append])] at whole
  exact whole

/-! ## Included headers -/

end Program
end WordSwitch
