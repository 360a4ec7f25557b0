import WordSwitch.Proofs.Program.Correctness

/-!
# Included files

The definitions include a system header if some switch reads several bytes at
once, and the declarations if these are a file of their own.  No other line of
them includes anything.
-/

namespace WordSwitch

namespace Source

/-- The file that a line includes, if the line is the directive for that. -/
def includedFile? : List Token → Option (List Token)
  | .atom (.mark '#') :: .atom (.word "include") :: file => some file
  | _ => none

/-- The files that a text includes. -/
def includedFiles (text : String) : List (List Token) :=
  (tokenLines text.toList).filterMap includedFile?

/-- Some lines include some files, whatever comes after them. -/
def Includes (lines : Lines) (files : List (List Token)) : Prop :=
  ∀ rest : List Char,
    (tokenLines ((Lines.text lines).toList ++ rest)).filterMap includedFile? =
      files ++ (tokenLines rest).filterMap includedFile?

theorem includedFile?_of_isPlain
    {tokens : List Token}
    (plain : IsPlain tokens) :
    includedFile? tokens = none := by
  unfold includedFile?
  split
  · exact absurd rfl plain.1
  · rfl

namespace Includes

theorem nil : Includes [] [] := by
  intro rest
  simp [Lines.text]

theorem append
    {first second : Lines}
    {firstFiles secondFiles : List (List Token)}
    (first_includes : Includes first firstFiles)
    (second_includes : Includes second secondFiles) :
    Includes (first ++ second) (firstFiles ++ secondFiles) := by
  intro rest
  rw [Lines.toList_text_append, List.append_assoc, first_includes,
    second_includes, List.append_assoc]

/-- A line that is no directive includes nothing. -/
theorem plain
    {line : String}
    {tokens : List Token}
    (lexes : LexesLine line.toList tokens)
    (isPlain : IsPlain tokens) :
    Includes [line] [] := by
  intro rest
  rw [tokenLines_text (.cons lexes .nil), List.singleton_append,
    List.filterMap_cons, includedFile?_of_isPlain isPlain, List.nil_append]

theorem cons
    {line : String}
    {lines : Lines}
    {tokens : List Token}
    {files : List (List Token)}
    (lexes : LexesLine line.toList tokens)
    (isPlain : IsPlain tokens)
    (includes : Includes lines files) :
    Includes (line :: lines) files :=
  (plain lexes isPlain).append includes

/-- Parts that include nothing include nothing together. -/
theorem flatMap
    {ι : Type}
    {parts : List ι}
    {lines : ι → Lines}
    (includes : ∀ part ∈ parts, Includes (lines part) []) :
    Includes (parts.flatMap lines) [] := by
  induction parts with
  | nil => exact nil
  | cons part rest hypothesis =>
    rw [List.flatMap_cons]
    apply append (includes part List.mem_cons_self)
    exact hypothesis fun other listed =>
      includes other (List.mem_cons_of_mem part listed)

/-- What a text of lines includes. -/
theorem includedFiles_text
    {lines : Lines}
    {files : List (List Token)}
    (includes : Includes lines files) :
    includedFiles (Lines.text lines) = files := by
  have whole := includes []
  rw [List.append_nil] at whole
  have empty : (tokenLines []).filterMap includedFile? = [] := rfl
  rw [includedFiles, whole, empty, List.append_nil]

end Includes

end Source

open Source

namespace Program

theorem includes_insideLinkage
    (config : CodeConfig)
    {lines : Lines}
    (includes : Includes lines []) :
    Includes (config.insideLinkage lines) [] := by
  have opens : Includes ["#ifdef __cplusplus", "extern \"C\" \x7b", "#endif"]
      [] := fun _ => rfl
  have closes : Includes ["#ifdef __cplusplus", "\x7d", "#endif"] [] :=
    fun _ => rfl
  unfold CodeConfig.insideLinkage
  split
  · exact (opens.append includes).append closes
  · exact includes

section

variable {config : CodeConfig} (named : config.IsNamed)

include named

theorem Code.includes_lines
    {length width : Nat}
    {code : Code}
    (fits : code.Fits length width)
    (level : Nat) :
    Includes (code.lines config level) [] := by
  induction code generalizing width level with
  | nil => exact .nil
  | unused next hypothesis =>
    exact .cons (lexesLine_unused (level + 1)) (by decide)
      (hypothesis fits level)
  | constant chunk next hypothesis =>
    exact .cons (lexesLine_constant level fits.1.1) (by simp [IsPlain])
      (hypothesis fits.2 level)
  | answer label next hypothesis =>
    exact .cons (lexesLine_answer named (level + 1) fits.1)
      (by simp [IsPlain, answerPhrase, Phrase.tokens])
      (hypothesis fits.2 level)
  | leave next hypothesis =>
    exact .cons (lexesLine_leave (level + 1)) (by decide)
      (hypothesis fits level)
  | switch subject body next body_includes next_includes =>
    have opening := lexesLine_switch named (level + 1) fits.1.readable
    have closing := Includes.cons (lexesLine_close (level + 1)) (by decide)
      (next_includes fits.2.2 level)
    exact .cons opening (by simp [IsPlain])
      ((body_includes fits.2.1 (level + 1)).append closing)

theorem includes_loadLines (width : Nat) :
    Includes (loadLines config width) [] :=
  .cons (lexesLine_loadSignature named (8 * width))
    (by simp [IsPlain, tokens_wordsPhrase])
    (.cons lexesLine_opening (by decide)
      (.cons (lexesLine_loadVariable (8 * width))
        (by simp [IsPlain, tokens_wordsPhrase])
        (.cons lexesLine_loadCopy (by decide)
          (.cons lexesLine_loadReturn (by decide)
            (.plain lexesLine_closing (by decide))))))

/-- The only file that reading several bytes takes is `<string.h>`. -/
theorem includes_wideReadLines (wideWidths : List Nat) :
    Includes (wideReadLines config wideWidths)
      (if wideWidths.isEmpty then []
        else includedFiles "#include <string.h>") := by
  unfold wideReadLines
  split
  · exact .nil
  · have directives : Includes byteOrderLines
        (includedFiles "#include <string.h>") := by
      intro rest
      rw [tokenLines_byteOrderLines, List.filterMap_append]
      rfl
    have loads := Includes.flatMap fun width (_ : width ∈ wideWidths) =>
      includes_loadLines named width
    exact directives.append loads

theorem includes_lengthFunctionLines
    {length : Nat}
    {code : Code}
    (fits : code.Fits length 0) :
    Includes (lengthFunctionLines config length code) [] :=
  .cons (lexesLine_lengthSignature named length)
    (by simp [IsPlain, tokens_wordsPhrase])
    (.cons lexesLine_opening (by decide)
      ((Code.includes_lines named fits 0).append
        (.plain lexesLine_closing (by decide))))

theorem includes_choiceLines (functions : List (Nat × Code)) :
    Includes (functions.flatMap fun (length, _) =>
      [s!"{Lines.indent 1}case {length}:",
        s!"{Lines.indent 2}return {config.lengthFunction length}(string);"])
      [] :=
  .flatMap fun pair _ =>
    .cons (lexesLine_choiceLabel pair.1) (by simp [IsPlain])
      (.plain (lexesLine_choiceReturn named pair.1) (by simp [IsPlain]))

theorem includes_entryFunctionLines
    {definitions : Program.Definitions}
    (fallback_named : IsName definitions.fallback) :
    Includes (entryFunctionLines config definitions) [] := by
  have tail := Includes.cons lexesLine_entryDefault (by decide)
    (.cons (lexesLine_answer named 2 fallback_named)
      (by simp [IsPlain, answerPhrase, Phrase.tokens])
      (.cons (lexesLine_close 1) (by decide)
        (.plain lexesLine_closing (by decide))))
  have choice := Includes.cons lexesLine_entrySwitch (by decide)
    ((includes_choiceLines named definitions.functions).append tail)
  have unused : Includes (if definitions.functions.isEmpty then
      [unusedLine 1] else []) [] := by
    split
    · exact .plain (lexesLine_unused 1) (by decide)
    · exact .nil
  have lines := Includes.cons (lexes_entrySignature named).line
    (isPlain_entrySignature config)
    (.cons lexesLine_opening (by decide) (unused.append choice))
  simpa [entryFunctionLines] using lines

theorem includes_insideNamespace
    {lines : Lines}
    (includes : Includes lines []) :
    Includes (config.insideNamespace lines) [] := by
  unfold CodeConfig.insideNamespace
  cases name_eq : config.namespaceName with
  | none => exact includes
  | some name =>
    obtain ⟨first, rest, _, opening, closing⟩ :=
      exists_lexesLine_namespace named name_eq
    exact (Includes.cons opening (isPlain_namespaceOpening first rest)
      includes).append (.plain closing (by decide))

/-- Apart from the declarations, the definitions include `<string.h>` if
several bytes are read at once, and nothing else. -/
theorem includedFiles_bodyText
    {wideWidths : List Nat}
    {definitions : Program.Definitions}
    (fit : definitions.Fit wideWidths) :
    includedFiles (bodyText config wideWidths definitions) =
      if wideWidths.isEmpty then []
      else includedFiles "#include <string.h>" := by
  have functions := Includes.flatMap fun (pair : Nat × Code)
      (listed : pair ∈ definitions.functions) =>
    includes_lengthFunctionLines named (fit.fits pair.1 pair.2 listed)
  have entry := includes_insideLinkage config
    (includes_entryFunctionLines named fit.fallback)
  have ends : Includes (if config.isSplit then [] else CodeConfig.guardEnd)
      [] := by
    split
    · exact .nil
    · exact fun _ => rfl
  have whole := ((includes_wideReadLines named wideWidths).append
    (includes_insideNamespace named (functions.append entry))).append ends
  simp only [List.append_nil] at whole
  exact whole.includedFiles_text

end

end Program
end WordSwitch
