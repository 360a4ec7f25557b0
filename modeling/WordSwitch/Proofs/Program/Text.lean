import WordSwitch.Proofs.Chunk.Case
import WordSwitch.Proofs.Program.Phrases
import WordSwitch.Proofs.Program.Shape
import WordSwitch.Proofs.Source.Reading

/-!
# The text of generated functions

The lines of some code leave the tokens of its phrase, if the labels in it are
names and it reads and compares what a single read supports.
-/

namespace WordSwitch

open Source

namespace Program

/-! ## Lexing the parts of lines -/

/-- What a character constant holds between its quotes. -/
def writtenByte (byte : UInt8) : List Char :=
  if byte == 39 then ['\\', '\'']
  else if byte == 92 then ['\\', '\\']
  else if 32 ≤ byte && byte ≤ 126 then [Char.ofNat byte.toNat]
  else '\\' :: 'x' :: hexPair byte

theorem toList_characterConstant (byte : UInt8) :
    (characterConstant byte).toList = '\'' :: writtenByte byte ++ ['\''] := by
  unfold characterConstant
  rw [String.toList_ofList]
  rfl

/-- A character constant denotes its byte. -/
theorem lexes_characterConstant (byte : UInt8) :
    Lexes (characterConstant byte).toList [.atom (.character byte)] := by
  have every : ∀ other : UInt8, staysQuoted false (writtenByte other) = true ∧
      Token.character (writtenByte other) = .character other :=
    Byte.forall_of_codes (by decide +kernel)
  obtain ⟨stays, denotes⟩ := every byte
  rw [toList_characterConstant]
  exact Lexes.quoted stays denotes

end Program

/-- The names in generated code are names. -/
structure CodeConfig.IsNamed (config : CodeConfig) : Prop where
  enumeration : IsName config.enumName
  function : IsName config.functionName
  namespaces : config.namespaceName.forM CodeConfig.checkNamespace = .ok ()

theorem isName_append_number
    {name : String}
    (isName : IsName name)
    (number : Nat) :
    IsName (name ++ toString number) :=
  isName.append fun _ member =>
    isLater_of_isDigit (isDigit_of_mem_toString member)

namespace CodeConfig

theorem isName_of_checkName
    {place : NamePlace}
    {name : String}
    (checked : checkName place name = .ok ()) :
    IsName name := by
  unfold checkName at checked
  split at checked
  · next identifier => exact isName_of_isIdentifier identifier
  · cases checked

theorem isNamed_of_check
    {config : CodeConfig}
    (checked : config.check = .ok ()) :
    config.IsNamed := by
  unfold check at checked
  cases enumeration : checkName .enumeration config.enumName with
  | error problem =>
    rw [enumeration] at checked
    cases checked
  | ok =>
    rw [enumeration] at checked
    cases function : checkName .function config.functionName with
    | error problem =>
      rw [function] at checked
      cases checked
    | ok =>
      rw [function] at checked
      cases counter : config.counterName.forM (checkName .counter) with
      | error problem =>
        simp only [counter] at checked
        cases checked
      | ok =>
        simp only [counter] at checked
        exact ⟨isName_of_checkName enumeration, isName_of_checkName function,
          checked⟩

theorem isIdentifier_counterName
    {config : CodeConfig}
    (checked : config.check = .ok ())
    {name : String}
    (counts : config.counterName = some name) :
    Label.isIdentifier name = true := by
  unfold check at checked
  rw [counts] at checked
  cases enumeration : checkName .enumeration config.enumName with
  | error problem =>
    rw [enumeration] at checked
    cases checked
  | ok =>
    rw [enumeration] at checked
    cases function : checkName .function config.functionName with
    | error problem =>
      rw [function] at checked
      cases checked
    | ok =>
      rw [function] at checked
      cases counter : checkName .counter name with
      | error problem =>
        have failed : (some name).forM (checkName .counter) = .error problem :=
          counter
        simp only [failed] at checked
        cases checked
      | ok =>
        unfold checkName at counter
        split at counter
        · assumption
        · cases counter

theorem IsNamed.lengthFunction
    {config : CodeConfig}
    (named : config.IsNamed)
    (length : Nat) :
    IsName (config.lengthFunction length) :=
  isName_append_number named.function length

theorem IsNamed.loadFunction
    {config : CodeConfig}
    (named : config.IsNamed)
    (bits : Nat) :
    IsName (config.loadFunction bits) :=
  isName_append_number
    (named.function.append (List.all_eq_true.mp rfl)) bits

end CodeConfig

namespace Program

@[simp] theorem toString_text (text : String) : toString text = text := rfl

/-- An enumerator in front of something that does not continue its name. -/
theorem lexes_enumerator
    {config : CodeConfig}
    (named : config.IsNamed)
    {label : String}
    (isName : IsName label)
    {text : List Char}
    {phrase : Phrase}
    (ends : Lexes.endsRun text = true)
    (lexes : Lexes text phrase.tokens) :
    Lexes ((config.enumerator label).toList ++ text)
      (config.enumeratorPhrase label phrase).tokens := by
  have labelled := Lexes.name_append isName ends lexes
  unfold CodeConfig.enumerator CodeConfig.enumeratorPhrase
  split
  · have scope : Lexes "::".toList [.atom (.mark ':'), .atom (.mark ':')] :=
      lexes_of_tokenLines rfl rfl
    have qualified := Lexes.name_append named.enumeration rfl
      (scope.append labelled)
    simpa [Phrase.tokens] using qualified
  · exact labelled

/-- A byte in its place in a wide constant. -/
theorem lexes_placed (bits shift : Nat) (byte : UInt8) :
    Lexes (s!"TRIE_HASH_ONECHAR({characterConstant byte}, {shift}, {bits})"
      ).toList (placedPhrase bits shift byte .nil).tokens := by
  have opens : Lexes "TRIE_HASH_ONECHAR(".toList
      [.atom (.word placeMacro), .opening .round] :=
    lexes_of_tokenLines rfl rfl
  have comma : Lexes ", ".toList [.atom (.mark ',')] :=
    lexes_of_tokenLines rfl rfl
  have closes : Lexes ")".toList [.closing .round] :=
    lexes_of_tokenLines rfl rfl
  have last : Lexes ((toString bits).toList ++ _) _ :=
    Lexes.number_append rfl closes
  have middle : Lexes ((toString shift).toList ++ _) _ :=
    Lexes.number_append rfl (comma.append last)
  have whole := opens.append ((lexes_characterConstant byte).append
    (comma.append middle))
  simpa [Phrase.tokens, placedPhrase] using whole

/-- The parts of a wide constant. -/
theorem lexes_placedBytes
    (bits shift : Nat)
    (byte : UInt8)
    (rest : Bytes) :
    Lexes (" | ".intercalate (placedBytes bits shift (byte :: rest))).toList
      (placedPhrase bits shift byte
        (laterPartsPhrase bits (shift + 8) rest .nil)).tokens := by
  induction rest generalizing shift byte with
  | nil =>
    rw [placedBytes, placedBytes, String.intercalate_singleton]
    exact lexes_placed bits shift byte
  | cons second rest hypothesis =>
    have bar : Lexes " | ".toList [.atom (.mark '|')] :=
      lexes_of_tokenLines rfl rfl
    have parts := (lexes_placed bits shift byte).append
      (bar.append (hypothesis (shift + 8) second))
    have separated : (" | ".intercalate
        (placedBytes bits shift (byte :: second :: rest))).toList =
        (s!"TRIE_HASH_ONECHAR({characterConstant byte}, {shift}, {bits})"
          ).toList ++ (" | ".toList ++ (" | ".intercalate
            (placedBytes bits (shift + 8) (second :: rest))).toList) := by
      rw [placedBytes, placedBytes, String.intercalate_cons_cons,
        String.toList_append, String.toList_append, List.append_assoc]
    rw [separated]
    simpa [Phrase.tokens, placedPhrase, laterPartsPhrase] using parts

/-- A constant. -/
theorem lexes_constant
    {chunk : Bytes}
    (nonempty : chunk ≠ []) :
    Lexes (constantExpression chunk).toList
      (constantPhrase chunk .nil).tokens := by
  match chunk with
  | [] => exact absurd rfl nonempty
  | [byte] => exact lexes_characterConstant byte
  | first :: second :: rest =>
    have expression : constantExpression (first :: second :: rest) =
        " | ".intercalate (placedBytes (8 * (first :: second :: rest).length) 0
          (first :: second :: rest)) := rfl
    have phrase : constantPhrase (first :: second :: rest) .nil =
        placedPhrase (8 * (first :: second :: rest).length) 0 first
          (laterPartsPhrase (8 * (first :: second :: rest).length) 8
            (second :: rest) .nil) := rfl
    rw [expression, phrase]
    exact lexes_placedBytes _ 0 first (second :: rest)

/-- The mask in front of something that does not continue its digits. -/
theorem lexes_mask
    {width : Nat}
    (readable : width ∈ Chunk.readableWidths)
    {text : List Char}
    {tokens : List Token}
    (ends : Lexes.endsRun text = true)
    (lexes : Lexes text tokens) :
    Lexes ((maskExpression width).toList ++ text)
      (.atom (.numeral (Chunk.foldMask width) (width == 8)) :: tokens) := by
  have cases_of_width := Chunk.mem_readableWidths_iff.mp readable
  have continues : (maskExpression width).toList.all Label.isLater = true := by
    rcases cases_of_width with rfl | rfl | rfl | rfl <;> rfl
  have denotes : Token.ofLexeme (.run (maskExpression width).toList) =
      .atom (.numeral (Chunk.foldMask width) (width == 8)) := by
    rcases cases_of_width with rfl | rfl | rfl | rfl <;> rfl
  have nonempty : (maskExpression width).toList ≠ [] := by
    intro absent
    rw [absent] at denotes
    cases denotes
  exact Lexes.run_append nonempty (List.all_eq_true.mp continues) denotes rfl
    ends lexes

/-- What a switch reads, without the mask. -/
theorem lexes_read
    {config : CodeConfig}
    (named : config.IsNamed)
    (subject : Subject) :
    Lexes (if subject.width == 1 then s!"string[{subject.offset}]"
      else s!"{config.loadFunction (8 * subject.width)}" ++
        s!"(string + {subject.offset})").toList
      (subject.readPhrase config .nil).tokens := by
  unfold Subject.readPhrase
  by_cases single : subject.width = 1
  · have opens : Lexes "string[".toList
        [.atom (.word "string"), .opening .square] :=
      lexes_of_tokenLines rfl rfl
    have closes : Lexes "]".toList [.closing .square] :=
      lexes_of_tokenLines rfl rfl
    have position : Lexes ((toString subject.offset).toList ++ _) _ :=
      Lexes.number_append rfl closes
    simpa [single, Phrase.tokens] using opens.append position
  · have opens : Lexes "(string + ".toList
        [.opening .round, .atom (.word "string"), .atom (.mark '+')] :=
      lexes_of_tokenLines rfl rfl
    have closes : Lexes ")".toList [.closing .round] :=
      lexes_of_tokenLines rfl rfl
    have position : Lexes ((toString subject.offset).toList ++ _) _ :=
      Lexes.number_append rfl closes
    have call : Lexes ((config.loadFunction (8 * subject.width)).toList ++ _)
        _ :=
      Lexes.name_append (named.loadFunction (8 * subject.width)) rfl
        (opens.append position)
    simpa [single, Phrase.tokens] using call

/-- What a switch depends on in front of something that does not continue it. -/
theorem lexes_subject
    {config : CodeConfig}
    (named : config.IsNamed)
    {subject : Subject}
    (readable : subject.width ∈ Chunk.readableWidths)
    {text : List Char}
    {tokens : List Token}
    (ends : Lexes.endsRun text = true)
    (lexes : Lexes text tokens) :
    Lexes ((subject.expression config).toList ++ text)
      ((subject.phrase config).tokens ++ tokens) := by
  have read := lexes_read named subject
  unfold Subject.expression Subject.phrase
  by_cases folded : subject.isFolded = true
  · have bar : Lexes " | ".toList [.atom (.mark '|')] :=
      lexes_of_tokenLines rfl rfl
    have masked := read.append (bar.append (lexes_mask readable ends lexes))
    have after := readPhrase_append subject config .nil
      (.atom (.mark '|') (.atom
        (.numeral (Chunk.foldMask subject.width) (subject.width == 8)) .nil))
    rw [Phrase.append] at after
    simp only [folded, if_true]
    rw [← after]
    simpa [Phrase.tokens] using masked
  · rw [Bool.not_eq_true] at folded
    simpa [folded] using read.append lexes

/-! ## Lines -/

/-- A line that begins with the spaces of some level. -/
theorem lexesLine_indent
    (level : Nat)
    {text : List Char}
    {tokens : List Token}
    (lexes : Lexes text tokens) :
    LexesLine ((Lines.indent level).toList ++ text) tokens := by
  rw [Lines.indent, String.toList_ofList]
  exact ((Lexes.spaces (4 * level)).append lexes).line

theorem lexesLine_unused (level : Nat) :
    LexesLine (unusedLine level).toList (unusedPhrase .nil).tokens := by
  have statement : Lexes "(void) string;".toList (unusedPhrase .nil).tokens :=
    lexes_of_tokenLines rfl rfl
  simpa [unusedLine] using lexesLine_indent level statement

theorem lexesLine_constant
    (level : Nat)
    {chunk : Bytes}
    (nonempty : chunk ≠ []) :
    LexesLine (constantLine level chunk).toList
      (.atom (.word "case") ::
        (constantPhrase chunk (.atom (.mark ':') .nil)).tokens) := by
  have keyword : Lexes "case ".toList [.atom (.word "case")] :=
    lexes_of_tokenLines rfl rfl
  have colon : Lexes ":".toList [.atom (.mark ':')] :=
    lexes_of_tokenLines rfl rfl
  have label := keyword.append ((lexes_constant nonempty).append colon)
  have phrase := constantPhrase_append chunk .nil (.atom (.mark ':') .nil)
  rw [Phrase.append] at phrase
  rw [← phrase]
  simpa [constantLine, Phrase.tokens] using lexesLine_indent level label

theorem lexesLine_answer
    {config : CodeConfig}
    (named : config.IsNamed)
    (level : Nat)
    {label : String}
    (isName : IsName label) :
    LexesLine (answerLine config level label).toList
      (answerPhrase config label .nil).tokens := by
  have keyword : Lexes "return ".toList [.atom (.word "return")] :=
    lexes_of_tokenLines rfl rfl
  have semicolon : Lexes ";".toList (Phrase.atom (.mark ';') .nil).tokens :=
    lexes_of_tokenLines rfl rfl
  have statement := keyword.append
    (lexes_enumerator named isName rfl semicolon)
  simpa [answerLine, answerPhrase, Phrase.tokens] using
    lexesLine_indent level statement

theorem lexesLine_leave (level : Nat) :
    LexesLine s!"{Lines.indent level}break;".toList
      [.atom (.word "break"), .atom (.mark ';')] := by
  have statement : Lexes "break;".toList
      [.atom (.word "break"), .atom (.mark ';')] :=
    lexes_of_tokenLines rfl rfl
  simpa using lexesLine_indent level statement

theorem lexesLine_switch
    {config : CodeConfig}
    (named : config.IsNamed)
    (level : Nat)
    {subject : Subject}
    (readable : subject.width ∈ Chunk.readableWidths) :
    LexesLine (subject.line config level).toList
      (.atom (.word "switch") :: .opening .round ::
        ((subject.phrase config).tokens ++
          [.closing .round, .opening .curly])) := by
  have keyword : Lexes "switch(".toList
      [.atom (.word "switch"), .opening .round] :=
    lexes_of_tokenLines rfl rfl
  have opens : Lexes ") \x7b".toList [.closing .round, .opening .curly] :=
    lexes_of_tokenLines rfl rfl
  have statement := keyword.append (lexes_subject named readable rfl opens)
  simpa [Subject.line] using lexesLine_indent level statement

theorem lexesLine_close (level : Nat) :
    LexesLine s!"{Lines.indent level}\x7d".toList [.closing .curly] := by
  have bracket : Lexes "\x7d".toList [.closing .curly] :=
    lexes_of_tokenLines rfl rfl
  simpa using lexesLine_indent level bracket

/-- The lines of some code leave the tokens of its phrase. -/
theorem Code.yields_lines
    {config : CodeConfig}
    (named : config.IsNamed)
    {length width : Nat}
    {code : Code}
    (fits : code.Fits length width)
    (environment : Environment)
    (macros : List Macro)
    (level : Nat) :
    Yields environment macros (code.lines config level) macros
      (code.phrase config).tokens := by
  induction code generalizing width level with
  | nil => exact Yields.nil
  | unused next hypothesis =>
    have whole := Yields.cons (lexesLine_unused (level + 1)) (by decide)
      (hypothesis fits level)
    exact whole
  | constant chunk next hypothesis =>
    have line := lexesLine_constant level fits.1.1
    have whole := Yields.cons line (by simp [IsPlain])
      (hypothesis fits.2 level)
    have phrase := constantPhrase_append chunk (.atom (.mark ':') .nil)
      (next.phrase config)
    simp only [Phrase.append] at phrase
    rw [Code.phrase, ← phrase, Code.lines]
    simpa [Phrase.tokens] using whole
  | answer label next hypothesis =>
    have line := lexesLine_answer named (level + 1) fits.1
    have whole := Yields.cons line (by simp [IsPlain, answerPhrase,
      Phrase.tokens]) (hypothesis fits.2 level)
    have phrase := answerPhrase_append config label .nil (next.phrase config)
    rw [Phrase.append] at phrase
    rw [Code.phrase, ← phrase, Code.lines]
    simpa using whole
  | leave next hypothesis =>
    exact Yields.cons (lexesLine_leave (level + 1)) (by decide)
      (hypothesis fits level)
  | switch subject body next body_yields next_yields =>
    have opening := lexesLine_switch named (level + 1) fits.1.readable
    have closing := Yields.cons (lexesLine_close (level + 1)) (by decide)
      (next_yields fits.2.2 level)
    have whole := Yields.cons opening (by simp [IsPlain])
      ((body_yields fits.2.1 (level + 1)).append closing)
    rw [Code.phrase, Code.lines]
    simpa [Phrase.tokens] using whole

end Program
end WordSwitch
