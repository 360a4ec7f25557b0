import WordSwitch.Ascending
import WordSwitch.Bytes
import WordSwitch.Enumerator
import WordSwitch.Lexicon.OrderedMap
import WordSwitch.Lexicon.Value

/-!
# Lexicons

A lexicon assigns a label to every word and a value to every label, and holds
the fallback that stands for all other inputs.  Words and labels are both
assigned by the last declaration: a repeated word keeps only its latest
label, and a repeated label gives its latest value to every word that carries
it.
-/

namespace WordSwitch

/-- A word with the enumerator it stands for. -/
structure Entry where
  word : Bytes
  label : String
  value : Int
deriving DecidableEq, Repr

namespace Entry

/-- The enumerator of an entry. -/
def enumerator (entry : Entry) : Enumerator :=
  ⟨entry.label, entry.value⟩

end Entry

/-- What a line of a word list says. -/
inductive Declaration where
  /-- A word with its label and perhaps its value. -/
  | entry (word : Bytes) (label : String) (value : Option Int)
  /-- The fallback's value and perhaps its label. -/
  | fallback (label : Option String) (value : Int)
deriving DecidableEq, Repr

/-- A set of words with their enumerators. -/
structure Lexicon where
  /-- The label of each word, in order of first declaration. -/
  words : OrderedMap Bytes String
  /-- The value of each label, in order of first declaration. -/
  labels : OrderedMap String Int
  /-- What stands for the inputs that are no word. -/
  fallback : Enumerator
  /-- The values left for entries that declare none. -/
  supply : ValueSupply
deriving DecidableEq, Repr

namespace Lexicon

/-- The fallback of a lexicon that declares none. -/
def undeclaredFallback : Enumerator := ⟨"Unknown", -1⟩

/-- The lexicon without words. -/
def empty : Lexicon :=
  ⟨.empty, .empty, undeclaredFallback, .fresh⟩

/-- The value last declared for a label. -/
def valueOf? (lexicon : Lexicon) (label : String) : Option Int :=
  lexicon.labels.get? label

/-- The entries in order of first declaration. -/
def entries (lexicon : Lexicon) : List Entry :=
  lexicon.words.toList.map fun pair =>
    ⟨pair.1, pair.2, (lexicon.valueOf? pair.2).getD 0⟩

/-- The number of words. -/
def size (lexicon : Lexicon) : Nat :=
  lexicon.words.toList.length

/-- The declared labels in order of first declaration, and the fallback last
unless its label is among them. -/
def enumeration (lexicon : Lexicon) : List Enumerator :=
  let declared := lexicon.labels.toList.map fun pair => ⟨pair.1, pair.2⟩
  match lexicon.valueOf? lexicon.fallback.label with
  | some _ => declared
  | none => declared ++ [lexicon.fallback]

/-- The largest value of the enumeration. -/
def largestValue (lexicon : Lexicon) : Int :=
  ((lexicon.enumeration.map Enumerator.value).max?).getD
    lexicon.fallback.value

/-- Give a label a value.  The fallback follows if it carries a label that
was declared before. -/
def defineLabel
    (lexicon : Lexicon)
    (label : String)
    (value : Int) :
    Lexicon :=
  { lexicon with
    labels := lexicon.labels.assign label value
    fallback :=
      if (lexicon.valueOf? label).isSome && lexicon.fallback.label == label then
        ⟨label, value⟩
      else
        lexicon.fallback }

/-- The value that an entry gets, and the supply after it; `none` if it
needs a value from a dry supply. -/
def chooseValue?
    (lexicon : Lexicon) :
    Option Int → Option (Int × ValueSupply)
  | some value => some (value, lexicon.supply.observe value)
  | none => lexicon.supply.take?

/-- Declare a word.  The result is the value it got and the new lexicon;
`none` if it needs a value and none is left. -/
def declareWord?
    (lexicon : Lexicon)
    (word : Bytes)
    (label : String)
    (value : Option Int) :
    Option (Int × Lexicon) :=
  (lexicon.chooseValue? value).map fun (chosen, supply) =>
    (chosen, { lexicon.defineLabel label chosen with
      words := lexicon.words.assign word label
      supply := supply })

/-- Declare the fallback.  Without a label it keeps the one it has. -/
def declareFallback
    (lexicon : Lexicon)
    (label : Option String)
    (value : Int) :
    Lexicon :=
  let label := label.getD lexicon.fallback.label
  { lexicon.defineLabel label value with
    fallback := ⟨label, value⟩
    supply := lexicon.supply.observe value }

/-- Follow a declaration; `none` if it needs a value and none is left. -/
def declare? (lexicon : Lexicon) : Declaration → Option Lexicon
  | .entry word label value =>
    (lexicon.declareWord? word label value).map (·.2)
  | .fallback label value => some (lexicon.declareFallback label value)

/-- Follow declarations from the lexicon without words. -/
def ofDeclarations? (declarations : List Declaration) : Option Lexicon :=
  declarations.foldlM declare? empty

/-- The distinct lengths of the words, ascending. -/
def lengths (lexicon : Lexicon) : List Nat :=
  ascending (lexicon.words.toList.map (·.1.length))

end Lexicon

end WordSwitch
