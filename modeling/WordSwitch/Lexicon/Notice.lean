import WordSwitch.Lexicon.Basic
import WordSwitch.Text.Quoted

/-!
# What a declaration overrides

A declaration that changes the value of a label or the label of a word is
followed, and noticed.
-/

namespace WordSwitch

/-- Something an earlier declaration said that no longer holds. -/
inductive Notice where
  /-- A label got another value. -/
  | labelRedefined (label : String) (before after : Int)
  /-- A word was declared again. -/
  | wordRepeated (word : Bytes) (before after : String)
deriving DecidableEq, Repr

namespace Notice

/-- The text of a notice. -/
def message : Notice → String
  | labelRedefined label before after =>
    s!"label {label} redefined from {before} to {after}"
  | wordRepeated word before after =>
    s!"word {Text.quoteBytes word} declared twice; {after} replaces {before}"

end Notice

namespace Lexicon

/-- The notice that a label changes its value, if it does. -/
def labelNotices
    (lexicon : Lexicon)
    (label : String)
    (value : Int) :
    List Notice :=
  match lexicon.valueOf? label with
  | some before =>
    if before = value then [] else [.labelRedefined label before value]
  | none => []

/-- The notice that a word is declared again, if it is. -/
def wordNotices
    (lexicon : Lexicon)
    (word : Bytes)
    (label : String) :
    List Notice :=
  match lexicon.words.get? word with
  | some before => [.wordRepeated word before label]
  | none => []

/-- What a declaration overrides.  One that fails overrides nothing. -/
def notices (lexicon : Lexicon) : Declaration → List Notice
  | .entry word label value =>
    match lexicon.chooseValue? value with
    | some (chosen, _) =>
      lexicon.labelNotices label chosen ++ lexicon.wordNotices word label
    | none => []
  | .fallback label value =>
    lexicon.labelNotices (label.getD lexicon.fallback.label) value

end Lexicon

end WordSwitch
