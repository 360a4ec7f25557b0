import Mathlib.Data.List.Forall2
import WordSwitch.Program.Lines
import WordSwitch.Proofs.Source.Lexing

/-!
# Reading lines

What some lines add to a text: the macros that are defined after them and the
tokens that they leave.  Lines that are read one after another add what each of
them does, so a text is read part by part.
-/

namespace WordSwitch

namespace Lines

theorem toList_text_cons (line : String) (lines : Lines) :
    (text (line :: lines)).toList =
      line.toList ++ '\n' :: (text lines).toList := by
  simp [text, String.toList_join]

theorem toList_text_append (first second : Lines) :
    (text (first ++ second)).toList =
      (text first).toList ++ (text second).toList := by
  simp [text, String.toList_join]

theorem text_append (first second : Lines) :
    text (first ++ second) = text first ++ text second := by
  apply String.toList_inj.mp
  rw [toList_text_append, String.toList_append]

end Lines

namespace Source

theorem tokenLines_line
    {line : List Char}
    {tokens : List Token}
    (lexes : LexesLine line tokens)
    (rest : List Char) :
    tokenLines (line ++ '\n' :: rest) = tokens :: tokenLines rest := by
  rw [tokenLines, List.splitOn_append_cons_self_of_not_mem lexes.oneLine,
    List.map_cons, lexes.gives]
  rfl

theorem tokenLines_text
    {lines : Lines}
    {tokens : List (List Token)}
    (lexes : List.Forall₂ (fun line => LexesLine line.toList) lines tokens)
    (rest : List Char) :
    tokenLines ((Lines.text lines).toList ++ rest) =
      tokens ++ tokenLines rest := by
  induction lexes with
  | nil => simp [Lines.text]
  | cons first _ hypothesis =>
    rw [Lines.toList_text_cons, List.append_assoc, List.cons_append,
      tokenLines_line first, hypothesis, List.cons_append]

/-- Where all open conditions hold, some lines leave some tokens and change
which macros are defined. -/
def Yields
    (environment : Environment)
    (before : List Macro)
    (lines : Lines)
    (after : List Macro)
    (tokens : List Token) :
    Prop :=
  ∀ conditions : List Bool, conditions.all id = true → ∀ rest : List Char,
    preprocess environment conditions before
        (tokenLines ((Lines.text lines).toList ++ rest)) =
      (preprocess environment conditions after (tokenLines rest)).map
        fun (macros, others) => (macros, tokens ++ others)

/-- A line is neither a directive nor invalid. -/
def IsPlain (tokens : List Token) : Prop :=
  tokens.head? ≠ some (.atom (.mark '#')) ∧
    tokens.head? ≠ some (.atom .invalid)

instance (tokens : List Token) : Decidable (IsPlain tokens) :=
  inferInstanceAs (Decidable (_ ∧ _))

theorem preprocess_plain
    {line : List Token}
    (plain : IsPlain line)
    (environment : Environment)
    (conditions : List Bool)
    (macros : List Macro)
    (rest : List (List Token)) :
    preprocess environment conditions macros (line :: rest) =
      (preprocess environment conditions macros rest).map
        fun (macros, tokens) =>
          (macros, if conditions.all id then line ++ tokens else tokens) := by
  rw [preprocess]
  · intro equal
    exact plain.2 (by rw [equal]; rfl)
  · intro directive equal
    exact plain.1 (by rw [equal]; rfl)

namespace Yields

variable {environment : Environment}
variable {before middle after : List Macro}

theorem nil : Yields environment before [] before [] := by
  intro conditions _ rest
  cases read : preprocess environment conditions before (tokenLines rest) <;>
    simp [Lines.text, read]

/-- Lines are read one part after another. -/
theorem append
    {first second : Lines}
    {firstTokens secondTokens : List Token}
    (first_yields : Yields environment before first middle firstTokens)
    (second_yields : Yields environment middle second after secondTokens) :
    Yields environment before (first ++ second) after
      (firstTokens ++ secondTokens) := by
  intro conditions hold rest
  rw [Lines.toList_text_append, List.append_assoc,
    first_yields conditions hold, second_yields conditions hold,
    Option.map_map]
  apply congrArg (Option.map · _)
  funext result
  simp

/-- A line that is no directive leaves its tokens. -/
theorem line
    {line : String}
    {tokens : List Token}
    (lexes : LexesLine line.toList tokens)
    (plain : IsPlain tokens) :
    Yields environment before [line] before tokens := by
  intro conditions hold rest
  rw [tokenLines_text (.cons lexes .nil), List.singleton_append,
    preprocess_plain plain]
  simp only [hold, if_true]

theorem cons
    {line : String}
    {lines : Lines}
    {lineTokens tokens : List Token}
    (lexes : LexesLine line.toList lineTokens)
    (plain : IsPlain lineTokens)
    (yields : Yields environment before lines after tokens) :
    Yields environment before (line :: lines) after (lineTokens ++ tokens) :=
  (Yields.line lexes plain).append yields

/-- The parts of a list of lines leave their tokens one after another. -/
theorem flatMap
    {ι : Type}
    {parts : List ι}
    {lines : ι → Lines}
    {tokens : ι → List Token}
    (yields : ∀ part ∈ parts,
      Yields environment before (lines part) before (tokens part)) :
    Yields environment before (parts.flatMap lines) before
      (parts.flatMap tokens) := by
  induction parts with
  | nil => exact nil
  | cons part rest hypothesis =>
    rw [List.flatMap_cons, List.flatMap_cons]
    apply append (yields part List.mem_cons_self)
    exact hypothesis fun other listed =>
      yields other (List.mem_cons_of_mem part listed)

/-- A line that is read if a macro is defined. -/
theorem ifDefined
    {directive line name : String}
    {tokens : List Token}
    (directive_lexes : LexesLine directive.toList
      [.atom (.mark '#'), .atom (.word "ifdef"), .atom (.word name)])
    (lexes : LexesLine line.toList tokens)
    (plain : IsPlain tokens) :
    Yields environment before [directive, line, "#endif"] before
      (if isDefined environment before name then tokens else []) := by
  have ends : LexesLine "#endif".toList
      [.atom (.mark '#'), .atom (.word "endif")] :=
    lexesLine_of_tokenLines (by decide) (by decide)
  intro conditions hold rest
  rw [tokenLines_text (.cons directive_lexes (.cons lexes (.cons ends .nil))),
    List.cons_append, List.cons_append, List.singleton_append, preprocess,
    preprocess_plain plain, preprocess, List.all_cons, hold, Bool.and_true, id]
  cases isDefined environment before name with
  | true => rfl
  | false =>
    cases preprocess environment conditions before (tokenLines rest) <;> rfl

/-- What is left of a text of lines. -/
theorem preprocess_text
    {lines : Lines}
    {macros : List Macro}
    {tokens : List Token}
    (yields : Yields environment before lines macros tokens) :
    preprocess environment [] before (tokenLines (Lines.text lines).toList) =
      some (macros, tokens) := by
  have whole := yields [] rfl []
  have ends : preprocess environment [] macros (tokenLines []) =
      some (macros, []) := rfl
  rw [List.append_nil, ends] at whole
  simpa using whole

/-- The same with the end of a condition that was open before. -/
theorem preprocess_text_guarded
    {lines : Lines}
    {macros : List Macro}
    {tokens : List Token}
    (yields : Yields environment before lines macros tokens) :
    preprocess environment [true] before
        (tokenLines (Lines.text (lines ++ ["#endif"])).toList) =
      some (macros, tokens) := by
  have whole := yields [true] rfl "#endif\n".toList
  have ends : preprocess environment [true] macros
      (tokenLines "#endif\n".toList) = some (macros, []) := rfl
  have last : (Lines.text ["#endif"]).toList = "#endif\n".toList := rfl
  rw [Lines.toList_text_append, last, whole, ends]
  simp

/-- A text of lines that hold a phrase defines the functions of that phrase. -/
theorem readAfter
    {lines : Lines}
    {macros : List Macro}
    {phrase : Phrase}
    {functions : List (Heading × Function)}
    (yields : Yields environment before lines macros phrase.tokens)
    (parsed : phrase.functions? = some functions) :
    Source.readAfter environment before [] (Lines.text lines) =
      some ⟨macros, functions.map Prod.snd, functions.map Prod.fst⟩ := by
  rw [Source.readAfter, yields.preprocess_text]
  simp [parsed]

/-- The same with the end of a condition that was open before. -/
theorem readAfter_guarded
    {lines : Lines}
    {macros : List Macro}
    {phrase : Phrase}
    {functions : List (Heading × Function)}
    (yields : Yields environment before lines macros phrase.tokens)
    (parsed : phrase.functions? = some functions) :
    Source.readAfter environment before [true]
        (Lines.text (lines ++ ["#endif"])) =
      some ⟨macros, functions.map Prod.snd, functions.map Prod.fst⟩ := by
  rw [Source.readAfter, yields.preprocess_text_guarded]
  simp [parsed]

end Yields

end Source
end WordSwitch
