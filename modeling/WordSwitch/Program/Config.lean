import WordSwitch.Lexicon.Basic
import WordSwitch.Lexicon.Label
import WordSwitch.Text.Quoted

/-!
# The names and forms of generated code

What the user chooses about the generated code, and the checks on it: all
names are identifiers, and the counter is neither a label nor beyond the
largest value.
-/

namespace WordSwitch

/-- What is asked of the generated code. -/
structure CodeConfig where
  /-- The name of the enumeration. -/
  enumName : String
  /-- The name of the entry function. -/
  functionName : String
  /-- The name of an extra enumerator, one above the largest value. -/
  counterName : Option String
  /-- A namespace around everything, perhaps nested. -/
  namespaceName : Option String
  /-- The name of the declarations if they are a file of their own. -/
  headerName : Option String
  /-- Whether enumerators are qualified by the enumeration. -/
  enumClass : Bool
  /-- Whether the entry function has C linkage. -/
  externC : Bool
  /-- Further headers for the declarations. -/
  includes : List String
deriving DecidableEq, Repr

/-- A place for a name that is chosen by the user. -/
inductive NamePlace where
  | enumeration
  | function
  | counter
  | namespaces
deriving DecidableEq, Repr

namespace NamePlace

/-- The description of a place in messages. -/
def description : NamePlace → String
  | enumeration => "enum name"
  | function => "function name"
  | counter => "counter name"
  | namespaces => "namespace"

end NamePlace

/-- Why a request for output is refused. -/
inductive RequestError where
  /-- Nothing is generated in that language. -/
  | unknownLanguage (name : String)
  /-- A name is no identifier. -/
  | invalidName (place : NamePlace) (name : String)
  /-- An outline has no declarations to put into a header. -/
  | splitOutline
  /-- The counter is already a label. -/
  | counterIsLabel (name : String)
  /-- There is no value for the counter. -/
  | counterTooLarge (name : String)
deriving DecidableEq, Repr

namespace RequestError

/-- The text of an error. -/
def message : RequestError → String
  | unknownLanguage name =>
    s!"unknown output language {Text.quote name} (expected C or tree)"
  | invalidName place name =>
    s!"{place.description} {Text.quote name} is not a valid identifier"
  | splitOutline =>
    "the tree listing is a single document; " ++
      "a separate header needs the C backend"
  | counterIsLabel name =>
    s!"counter name {Text.quote name} is already used as a label"
  | counterTooLarge name =>
    s!"counter {Text.quote name} would be one past i64::MAX"

end RequestError

namespace CodeConfig

/-- Refuse a name that is no identifier. -/
def checkName (place : NamePlace) (name : String) : Except RequestError Unit :=
  if Label.isIdentifier name then .ok () else .error (.invalidName place name)

/-- The segments between double colons. -/
def segments (name : List Char) : List (List Char) :=
  match name with
  | [] => [[]]
  | ':' :: ':' :: rest => [] :: segments rest
  | char :: rest =>
    match segments rest with
    | [] => [[char]]
    | segment :: others => (char :: segment) :: others

/-- Refuse a namespace if a segment of it is no identifier. -/
def checkNamespace (name : String) : Except RequestError Unit :=
  if (segments name.toList).all Label.spellsIdentifier then .ok ()
  else .error (.invalidName .namespaces name)

/-- Refuse names that are no identifiers. -/
def check (config : CodeConfig) : Except RequestError Unit := do
  checkName .enumeration config.enumName
  checkName .function config.functionName
  config.counterName.forM (checkName .counter)
  config.namespaceName.forM checkNamespace

/-- Refuse a counter that a lexicon leaves no name or no value for. -/
def checkAgainst
    (config : CodeConfig)
    (lexicon : Lexicon) :
    Except RequestError Unit :=
  match config.counterName with
  | none => .ok ()
  | some name =>
    if lexicon.enumeration.any (·.label == name) then
      .error (.counterIsLabel name)
    else if lexicon.largestValue == maxValue then
      .error (.counterTooLarge name)
    else
      .ok ()

end CodeConfig

end WordSwitch
