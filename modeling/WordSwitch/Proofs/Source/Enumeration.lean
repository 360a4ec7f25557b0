import WordSwitch.Enumerator
import WordSwitch.Proofs.Source.Reading

/-!
# Enumerations in source text

Declarations are read for the enumerations in them.  An enumeration is told by
its keyword and the brackets around its members, so prototypes that return one
are none.
-/

namespace WordSwitch
namespace Source

/-- An enumeration with its members. -/
structure Enumeration where
  name : String
  /-- Whether members are qualified by the name. -/
  isClass : Bool
  members : List Enumerator
deriving DecidableEq, Repr

namespace Phrase

/-- Read members with their values, each with a comma after it. -/
def members? : Phrase → Option (List Enumerator)
  | nil => some []
  | atom (.word label) (atom (.mark '=')
      (atom (.numeral size false) (atom (.mark ',') next))) =>
    next.members?.map (⟨label, size⟩ :: ·)
  | atom (.word label) (atom (.mark '=') (atom (.mark '-')
      (atom (.numeral size false) (atom (.mark ',') next)))) =>
    next.members?.map (⟨label, -size⟩ :: ·)
  | _ => none

/-- Read enumerations.  They may stand in namespaces and linkage blocks. -/
def enumerations? : Phrase → Option (List Enumeration)
  | nil => some []
  | atom (.word "enum") (atom (.word "class") (atom (.word name)
      (group .curly inside next))) =>
    inside.members?.bind fun members =>
      next.enumerations?.map (⟨name, true, members⟩ :: ·)
  | atom (.word "enum") (atom (.word name) (group .curly inside next)) =>
    inside.members?.bind fun members =>
      next.enumerations?.map (⟨name, false, members⟩ :: ·)
  | atom _ next => next.enumerations?
  | group .curly inside next =>
    inside.enumerations?.bind fun enumerations =>
      next.enumerations?.map (enumerations ++ ·)
  | group _ _ next => next.enumerations?

/-- A word declares nothing if no other word follows and no enumeration does. -/
theorem enumerations?_word
    (name : String)
    {next : Phrase}
    (apart : ∀ other rest, next ≠ atom (.word other) rest) :
    (atom (.word name) next).enumerations? = next.enumerations? := by
  rw [enumerations?]
  · intro other inside rest _ equal
    exact absurd equal (apart _ _)
  · intro other inside rest _ equal
    exact absurd equal (apart _ _)

theorem enumerations?_mark (char : Char) (next : Phrase) :
    (atom (.mark char) next).enumerations? = next.enumerations? := by
  rw [enumerations?]
  all_goals intros; simp_all

end Phrase

/-- The enumerations in a text that stands inside of some open conditions and
closes them. -/
def readEnumerations
    (environment : Environment)
    (conditions : List Bool)
    (text : String) :
    Option (List Enumeration) :=
  (preprocess environment conditions [] (tokenLines text.toList)).bind
    fun (_, tokens) =>
      (Phrase.ofTokens? tokens).bind Phrase.enumerations?

/-- A text of lines that hold a phrase declares the enumerations of that
phrase. -/
theorem Yields.readEnumerations
    {environment : Environment}
    {lines : Lines}
    {macros : List Macro}
    {phrase : Phrase}
    {enumerations : List Enumeration}
    (yields : Yields environment [] lines macros phrase.tokens)
    (parsed : phrase.enumerations? = some enumerations) :
    Source.readEnumerations environment [] (Lines.text lines) =
      some enumerations := by
  rw [Source.readEnumerations, yields.preprocess_text]
  simp [parsed]

/-- The same with the end of a condition that was open before. -/
theorem Yields.readEnumerations_guarded
    {environment : Environment}
    {lines : Lines}
    {macros : List Macro}
    {phrase : Phrase}
    {enumerations : List Enumeration}
    (yields : Yields environment [] lines macros phrase.tokens)
    (parsed : phrase.enumerations? = some enumerations) :
    Source.readEnumerations environment [true]
        (Lines.text (lines ++ ["#endif"])) =
      some enumerations := by
  rw [Source.readEnumerations, yields.preprocess_text_guarded]
  simp [parsed]

end Source
end WordSwitch
