import WordSwitch.Lexicon.Basic
import WordSwitch.Lexicon.Label
import WordSwitch.Text.Quoted
import WordSwitch.WordList.Numeral

/-!
# Lines of a word list

A line declares an entry, `[label ~] word [= value]`, or the fallback,
`[label ~] = value`, or is blank.  Each part is a single token.
-/

namespace WordSwitch
namespace Line

/-- The part of a line that a token belongs to. -/
inductive Part where
  | label
  | value
  | word
deriving DecidableEq, Repr

namespace Part

/-- The name of a part in messages. -/
def name : Part → String
  | label => "label"
  | value => "value"
  | word => "word"

end Part

/-- Why a line is refused. -/
inductive Problem where
  /-- A part has a second token. -/
  | unexpectedToken (token : Bytes) (part : Part)
  /-- A second `~` or `=`, or a `~` after the `=`. -/
  | misplacedMark
  /-- Nothing in front of the `~`. -/
  | missingLabel
  /-- Nothing after the `=`. -/
  | missingValue
  /-- Neither a word nor a value. -/
  | missingWord
  /-- The value is not a numeral of a value. -/
  | invalidValue (numeral : Bytes)
  /-- The value comes out of a negation that overflows. -/
  | negationOverflow
  /-- The label, declared or derived from the word, is no identifier. -/
  | invalidLabel (label : String) (isDerived : Bool)
  /-- The word needs a value and none is left. -/
  | valuesExhausted
deriving DecidableEq, Repr

namespace Problem

/-- The description of a problem. -/
def message : Problem → String
  | unexpectedToken token part =>
    s!"unexpected token {Text.quoteBytes token} after {part.name}"
  | misplacedMark => "expected `[label ~] word [= value]`"
  | missingLabel => "empty label before `~`"
  | missingValue => "missing value after `=`"
  | missingWord => "expected a word or `= value`"
  | invalidValue numeral => s!"invalid value {Text.quoteBytes numeral}"
  | negationOverflow => "attempt to negate with overflow"
  | invalidLabel label false =>
    s!"{Text.quote label} is not a valid identifier"
  | invalidLabel label true =>
    s!"{Text.quote label} is not a valid identifier" ++
      "; give the word an explicit `label ~`"
  | valuesExhausted =>
    "no value left after i64::MAX; give the word an explicit value"

/-- Whether the problem is reported.  An overflow is not: it breaks off
whatever is under way. -/
def isReported : Problem → Bool
  | negationOverflow => false
  | _ => true

theorem isReported_eq_false_iff {problem : Problem} :
    problem.isReported = false ↔ problem = negationOverflow := by
  cases problem <;> simp [isReported]

end Problem

/-- The token of a part, if it has one. -/
def singleToken
    (part : Part)
    (bytes : Bytes) :
    Except Problem (Option Bytes) :=
  match Bytes.tokens bytes with
  | [] => .ok none
  | [token] => .ok (some token)
  | _ :: second :: _ => .error (.unexpectedToken second part)

/-- The parts of a line, as far as the marks tell them apart. -/
structure Parts where
  label : Option Bytes
  word : Bytes
  value : Option Bytes
deriving DecidableEq, Repr

/-- The mark after a label. -/
def labelMark : UInt8 := 126

/-- The mark in front of a value. -/
def valueMark : UInt8 := 61

/-- Cut a line at its marks. -/
def parts (line : Bytes) : Parts :=
  let (label, rest) := match Bytes.cutAt labelMark line with
    | some (label, rest) => (some label, rest)
    | none => (none, line)
  match Bytes.cutAt valueMark rest with
  | some (word, value) => ⟨label, word, some value⟩
  | none => ⟨label, rest, none⟩

/-- Whether a mark is left in a part that may hold none. -/
def Parts.hasMisplacedMark (parts : Parts) : Bool :=
  parts.word.contains labelMark ||
    (parts.value.any fun value =>
      value.contains labelMark || value.contains valueMark)

/-- The declared label. -/
def readLabel : Option Bytes → Except Problem (Option String)
  | none => .ok none
  | some part => do
    match ← singleToken .label part with
    | none => .error .missingLabel
    | some token =>
      if Label.spellsIdentifier (Bytes.characters token).toList then
        .ok (some (Bytes.characters token))
      else
        .error (.invalidLabel (Text.decode token) false)

/-- The declared value. -/
def readValue : Option Bytes → Except Problem (Option Int)
  | none => .ok none
  | some part => do
    match ← singleToken .value part with
    | none => .error .missingValue
    | some token =>
      match Numeral.read token with
      | .ok value => .ok (some value)
      | .error .invalid => .error (.invalidValue token)
      | .error .overflow => .error .negationOverflow

/-- The declaration of a word, which gets a label of its own if it declares
none. -/
def declareWord
    (word : Bytes)
    (label : Option String)
    (value : Option Int) :
    Except Problem Declaration :=
  match label with
  | some label => .ok (.entry word label value)
  | none =>
    let derived := Label.ofWord word
    if Label.isIdentifier derived then .ok (.entry word derived value)
    else .error (.invalidLabel derived true)

/-- The declaration made by a line that is not blank. -/
def Parts.declaration (parts : Parts) : Except Problem Declaration := do
  let label ← readLabel parts.label
  let value ← readValue parts.value
  match ← singleToken .word parts.word, value with
  | some word, value => declareWord word label value
  | none, some value => .ok (.fallback label value)
  | none, none => .error .missingWord

/-- What a line declares; nothing if it is blank. -/
def parse (line : Bytes) : Except Problem (Option Declaration) :=
  if line.all Byte.isSpace then .ok none
  else if (parts line).hasMisplacedMark then .error .misplacedMark
  else some <$> (parts line).declaration

end Line
end WordSwitch
