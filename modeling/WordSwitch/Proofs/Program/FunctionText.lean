import WordSwitch.Proofs.Program.Text

/-!
# The text of the definitions

The lines of each function leave the tokens of its phrase, and so do the lines
of all definitions.  Lines that C++ alone reads leave tokens there only.
-/

namespace WordSwitch

open Source

namespace Program

theorem tokens_wordsPhrase (names : List String) (next : Phrase) :
    (wordsPhrase names next).tokens =
      names.map (fun name => Token.atom (.word name)) ++ next.tokens := by
  induction names with
  | nil => rfl
  | cons name rest hypothesis =>
    rw [wordsPhrase, List.foldr_cons, ← wordsPhrase, Phrase.tokens, hypothesis]
    rfl

theorem isName_readType (bits : Nat) : IsName (readType bits) := by
  have unsigned : IsName "uint" :=
    isName_of_isIdentifier rfl
  exact (isName_append_number unsigned bits).append
    (List.all_eq_true.mp rfl)

theorem lexesLine_opening : LexesLine "\x7b".toList [.opening .curly] :=
  lexesLine_of_tokenLines rfl rfl

theorem lexesLine_closing : LexesLine "\x7d".toList [.closing .curly] :=
  lexesLine_of_tokenLines rfl rfl

/-! ## Functions that read several bytes -/

theorem lexesLine_loadSignature
    {config : CodeConfig}
    (named : config.IsNamed)
    (bits : Nat) :
    LexesLine (s!"static inline uint{bits}_t {config.loadFunction bits}" ++
        "(const char *p)").toList
      (wordsPhrase
        ["static", "inline", readType bits, config.loadFunction bits]
        (.group .round (pointerPhrase "p" .nil) .nil)).tokens := by
  have storage : Lexes "static inline ".toList
      [.atom (.word "static"), .atom (.word "inline")] :=
    lexes_of_tokenLines rfl rfl
  have parameter : Lexes "(const char *p)".toList
      (Phrase.group .round (pointerPhrase "p" .nil) .nil).tokens :=
    lexes_of_tokenLines rfl rfl
  have space : Lexes [' '] [] := Lexes.spaces 1
  have name : Lexes ((config.loadFunction bits).toList ++ _) _ :=
    Lexes.name_append (named.loadFunction bits) rfl parameter
  have type : Lexes ((readType bits).toList ++ _) _ :=
    Lexes.name_append (isName_readType bits) rfl (space.append name)
  have line := (storage.append type).line
  simpa [readType, tokens_wordsPhrase] using line

theorem lexesLine_loadVariable (bits : Nat) :
    LexesLine s!"{Lines.indent 1}uint{bits}_t v;".toList
      (wordsPhrase [readType bits, "v"] (.atom (.mark ';') .nil)).tokens := by
  have ends : Lexes " v;".toList [.atom (.word "v"), .atom (.mark ';')] :=
    lexes_of_tokenLines rfl rfl
  have text : Lexes ((readType bits).toList ++ _) _ :=
    Lexes.name_append (isName_readType bits) rfl ends
  simpa [readType, tokens_wordsPhrase, Phrase.tokens] using
    lexesLine_indent 1 text

theorem lexesLine_loadCopy :
    LexesLine s!"{Lines.indent 1}memcpy(&v, p, sizeof v);".toList
      (Phrase.atom (.word "memcpy") (.group .round
        (.atom (.mark '&') (.atom (.word "v") (.atom (.mark ',')
          (.atom (.word "p") (.atom (.mark ',')
            (wordsPhrase ["sizeof", "v"] .nil))))))
        (.atom (.mark ';') .nil))).tokens :=
  lexesLine_of_tokenLines rfl rfl

theorem lexesLine_loadReturn :
    LexesLine s!"{Lines.indent 1}return v;".toList
      (wordsPhrase ["return", "v"] (.atom (.mark ';') .nil)).tokens :=
  lexesLine_of_tokenLines rfl rfl

/-- The function that reads some bytes at once. -/
theorem yields_loadLines
    {config : CodeConfig}
    (named : config.IsNamed)
    (environment : Environment)
    (macros : List Macro)
    (width : Nat) :
    Yields environment macros (loadLines config width) macros
      (loadPhrase config (8 * width) .nil).tokens := by
  have signature := lexesLine_loadSignature named (8 * width)
  have lines := Yields.cons signature (by simp [IsPlain, tokens_wordsPhrase])
    (Yields.cons lexesLine_opening (by decide)
      (Yields.cons (lexesLine_loadVariable (8 * width))
          (by simp [IsPlain, tokens_wordsPhrase])
        (Yields.cons lexesLine_loadCopy (by decide)
          (Yields.cons lexesLine_loadReturn (by decide)
            (@Yields.line environment macros _ _ lexesLine_closing (by decide))))))
  simpa [loadLines, loadPhrase, tokens_wordsPhrase, Phrase.tokens] using lines

/-! ## Functions of the recognizer -/

/-- The type of the enumeration in front of a space. -/
theorem lexes_returnType
    {config : CodeConfig}
    (named : config.IsNamed)
    {text : List Char}
    {tokens : List Token}
    (ends : Lexes.endsRun text = true)
    (lexes : Lexes text tokens) :
    Lexes (config.returnType.toList ++ text)
      ((returnWords config).map (fun name => Token.atom (.word name)) ++
        tokens) := by
  have name := Lexes.name_append named.enumeration ends lexes
  unfold CodeConfig.returnType returnWords
  split
  · exact name
  · have keyword : Lexes "enum ".toList [.atom (.word "enum")] :=
      lexes_of_tokenLines rfl rfl
    simpa using keyword.append name

theorem lexesLine_lengthSignature
    {config : CodeConfig}
    (named : config.IsNamed)
    (length : Nat) :
    LexesLine (s!"static {config.returnType} {config.lengthFunction length}" ++
        "(const char *string)").toList
      (wordsPhrase
        ("static" :: returnWords config ++ [config.lengthFunction length])
        (.group .round (pointerPhrase "string" .nil) .nil)).tokens := by
  have storage : Lexes "static ".toList [.atom (.word "static")] :=
    lexes_of_tokenLines rfl rfl
  have parameter : Lexes "(const char *string)".toList
      (Phrase.group .round (pointerPhrase "string" .nil) .nil).tokens :=
    lexes_of_tokenLines rfl rfl
  have space : Lexes [' '] [] := Lexes.spaces 1
  have name : Lexes ((config.lengthFunction length).toList ++ _) _ :=
    Lexes.name_append (named.lengthFunction length) rfl parameter
  have line := (storage.append
    (lexes_returnType named rfl (space.append name))).line
  simpa [tokens_wordsPhrase] using line

/-- The function for one length. -/
theorem yields_lengthFunctionLines
    {config : CodeConfig}
    (named : config.IsNamed)
    {length : Nat}
    {code : Code}
    (fits : code.Fits length 0)
    (environment : Environment)
    (macros : List Macro) :
    Yields environment macros (lengthFunctionLines config length code) macros
      (lengthFunctionPhrase config length code .nil).tokens := by
  have signature := lexesLine_lengthSignature named length
  have body := (Code.yields_lines named fits environment macros 0).append
    (Yields.line lexesLine_closing (by decide))
  have lines := Yields.cons signature (by simp [IsPlain, tokens_wordsPhrase])
    (Yields.cons lexesLine_opening (by decide) body)
  simpa [lengthFunctionLines, lengthFunctionPhrase, tokens_wordsPhrase,
    Phrase.tokens] using lines

theorem lexes_entrySignature
    {config : CodeConfig}
    (named : config.IsNamed) :
    Lexes config.entrySignature.toList
      (wordsPhrase ((if config.isSplit then [] else ["static"]) ++
          returnWords config ++ [config.functionName])
        (.group .round
          (pointerPhrase "string" (.atom (.mark ',')
            (wordsPhrase ["size_t", "length"] .nil))) .nil)).tokens := by
  have parameters : Lexes "(const char *string, size_t length)".toList
      (Phrase.group .round
        (pointerPhrase "string" (.atom (.mark ',')
          (wordsPhrase ["size_t", "length"] .nil))) .nil).tokens :=
    lexes_of_tokenLines rfl rfl
  have space : Lexes [' '] [] := Lexes.spaces 1
  have name : Lexes (config.functionName.toList ++ _) _ :=
    Lexes.name_append named.function rfl parameters
  have typed := lexes_returnType named rfl (space.append name)
  unfold CodeConfig.entrySignature CodeConfig.entryStorage
  split
  · simpa [tokens_wordsPhrase] using typed
  · have storage : Lexes "static ".toList [.atom (.word "static")] :=
      lexes_of_tokenLines rfl rfl
    simpa [tokens_wordsPhrase] using storage.append typed

theorem choicePhrase_append
    (config : CodeConfig)
    (functions : List (Nat × Code))
    (next after : Phrase) :
    (choicePhrase config functions next).append after =
      choicePhrase config functions (next.append after) := by
  induction functions with
  | nil => rfl
  | cons pair rest hypothesis =>
    simp only [choicePhrase, wordsPhrase, List.foldr_cons, List.foldr_nil,
      Phrase.append, hypothesis]

theorem lexesLine_choiceLabel (length : Nat) :
    LexesLine s!"{Lines.indent 1}case {length}:".toList
      [.atom (.word "case"), .atom (.numeral length false),
        .atom (.mark ':')] := by
  have keyword : Lexes "case ".toList [.atom (.word "case")] :=
    lexes_of_tokenLines rfl rfl
  have colon : Lexes ":".toList [.atom (.mark ':')] :=
    lexes_of_tokenLines rfl rfl
  have number : Lexes ((toString length).toList ++ _) _ :=
    Lexes.number_append rfl colon
  simpa using lexesLine_indent 1 (keyword.append number)

theorem lexesLine_choiceReturn
    {config : CodeConfig}
    (named : config.IsNamed)
    (length : Nat) :
    LexesLine
      s!"{Lines.indent 2}return {config.lengthFunction length}(string);".toList
      [.atom (.word "return"), .atom (.word (config.lengthFunction length)),
        .opening .round, .atom (.word "string"), .closing .round,
        .atom (.mark ';')] := by
  have keyword : Lexes "return ".toList [.atom (.word "return")] :=
    lexes_of_tokenLines rfl rfl
  have argument : Lexes "(string);".toList
      [.opening .round, .atom (.word "string"), .closing .round,
        .atom (.mark ';')] :=
    lexes_of_tokenLines rfl rfl
  have name : Lexes ((config.lengthFunction length).toList ++ _) _ :=
    Lexes.name_append (named.lengthFunction length) rfl argument
  simpa using lexesLine_indent 2 (keyword.append name)

/-- The choice among the functions. -/
theorem yields_choiceLines
    {config : CodeConfig}
    (named : config.IsNamed)
    (environment : Environment)
    (macros : List Macro)
    (functions : List (Nat × Code)) :
    Yields environment macros
      (functions.flatMap fun (length, _) =>
        [s!"{Lines.indent 1}case {length}:",
          s!"{Lines.indent 2}return {config.lengthFunction length}(string);"])
      macros (choicePhrase config functions .nil).tokens := by
  induction functions with
  | nil => exact Yields.nil
  | cons pair rest hypothesis =>
    obtain ⟨length, code⟩ := pair
    have lines := Yields.cons (lexesLine_choiceLabel length) (by simp [IsPlain])
      (Yields.cons (lexesLine_choiceReturn named length) (by simp [IsPlain])
        hypothesis)
    simpa [choicePhrase, tokens_wordsPhrase, Phrase.tokens] using lines

theorem lexesLine_entrySwitch :
    LexesLine s!"{Lines.indent 1}switch (length) \x7b".toList
      [.atom (.word "switch"), .opening .round, .atom (.word "length"),
        .closing .round, .opening .curly] :=
  lexesLine_of_tokenLines rfl rfl

theorem lexesLine_entryDefault :
    LexesLine s!"{Lines.indent 1}default:".toList
      [.atom (.word "default"), .atom (.mark ':')] :=
  lexesLine_of_tokenLines rfl rfl

/-- The line that opens the entry function is no directive. -/
theorem isPlain_entrySignature (config : CodeConfig) :
    IsPlain (wordsPhrase ((if config.isSplit then [] else ["static"])
      ++ returnWords config ++ [config.functionName])
      (.group .round
        (pointerPhrase "string" (.atom (.mark ',')
          (wordsPhrase ["size_t", "length"] .nil))) .nil)).tokens := by
  unfold IsPlain returnWords
  rw [tokens_wordsPhrase]
  cases config.isSplit <;> cases config.enumClass <;> simp

/-- The entry function. -/
theorem yields_entryFunctionLines
    {config : CodeConfig}
    (named : config.IsNamed)
    {definitions : Program.Definitions}
    (fallback_named : IsName definitions.fallback)
    (environment : Environment)
    (macros : List Macro) :
    Yields environment macros (entryFunctionLines config definitions) macros
      (entryFunctionPhrase config definitions .nil).tokens := by
  have signature := (lexes_entrySignature named).line
  have answer := lexesLine_answer named 2 fallback_named
  have tail := Yields.cons lexesLine_entryDefault (by decide)
    (Yields.cons answer (by simp [IsPlain, answerPhrase, Phrase.tokens])
      (Yields.cons (lexesLine_close 1) (by decide)
        (@Yields.line environment macros _ _ lexesLine_closing (by decide))))
  have choice := Yields.cons lexesLine_entrySwitch (by decide)
    ((yields_choiceLines named environment macros
      definitions.functions).append tail)
  have after := choicePhrase_append config definitions.functions .nil
    (.atom (.word "default") (.atom (.mark ':')
      (answerPhrase config definitions.fallback .nil)))
  rw [Phrase.append] at after
  unfold entryFunctionPhrase entryBodyPhrase
  rw [← after]
  cases empty : definitions.functions.isEmpty with
  | true =>
    have lines := Yields.cons signature (isPlain_entrySignature config)
      (Yields.cons lexesLine_opening (by decide)
        (Yields.cons (lexesLine_unused 1) (by decide) choice))
    simpa [entryFunctionLines, empty, unusedPhrase, tokens_wordsPhrase,
      Phrase.tokens] using lines
  | false =>
    have lines := Yields.cons signature (isPlain_entrySignature config)
      (Yields.cons lexesLine_opening (by decide) choice)
    simpa [entryFunctionLines, empty, tokens_wordsPhrase, Phrase.tokens]
      using lines

end Program
end WordSwitch
