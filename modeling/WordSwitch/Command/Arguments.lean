/-!
# Command lines

Arguments are options and at most one operand.  An option is written with two
dashes and its name, or with one dash and its letter; letters of options that
take no value may be joined.  A value is attached, after an equals sign if it
follows a name, or is the next argument.  After a lone double dash all
arguments are operands.  Arguments are taken in order, and the first that is
refused ends the reading.
-/

namespace WordSwitch
namespace Command

/-- What an option does. -/
inductive OptionKind where
  /-- It is given at most once and takes no value. -/
  | flag
  /-- It is given at most once and takes a value that passes a test. -/
  | value (isValid : String → Bool)
  /-- It may be repeated and takes any value. -/
  | repeated
  /-- It asks for the version and ends the reading. -/
  | version
  /-- It asks for help and ends the reading. -/
  | help

/-- An option. -/
structure OptionForm where
  /-- The first of its names. -/
  name : String
  /-- Its other names. -/
  aliases : List String
  letter : Option Char
  kind : OptionKind

namespace OptionForm

/-- Whether the option takes a value. -/
def takesValue (form : OptionForm) : Bool :=
  match form.kind with
  | .value _ | .repeated => true
  | _ => false

/-- An option with one name and no letter. -/
def named (name : String) (kind : OptionKind) : OptionForm :=
  ⟨name, [], none, kind⟩

end OptionForm

/-- Why the reading of arguments ends early. -/
inductive Stop where
  /-- The arguments do not fit the command. -/
  | refused
  | version
  | help
deriving DecidableEq, Repr

/-- The arguments of a command. -/
structure Arguments where
  /-- The options given, with their values, latest first. -/
  given : List (String × String)
  operand : Option String

namespace Arguments

/-- Whether an option is given. -/
def has (arguments : Arguments) (name : String) : Bool :=
  arguments.given.any (·.1 == name)

/-- The value of an option. -/
def value? (arguments : Arguments) (name : String) : Option String :=
  arguments.given.lookup name

/-- The values of an option that may be repeated, in order. -/
def values (arguments : Arguments) (name : String) : List String :=
  ((arguments.given.filter (·.1 == name)).map (·.2)).reverse

end Arguments

/-- Arguments being read. -/
structure ArgumentReader where
  arguments : Arguments
  /-- The option whose value is the next argument. -/
  pending : Option OptionForm
  /-- Whether only operands may follow. -/
  isOperandsOnly : Bool

namespace ArgumentReader

/-- Before the first argument. -/
def initial : ArgumentReader := ⟨⟨[], none⟩, none, false⟩

/-- Record an option. -/
def record
    (reader : ArgumentReader)
    (form : OptionForm)
    (value : String) :
    ArgumentReader :=
  { reader with
    pending := none
    arguments := { reader.arguments with
      given := (form.name, value) :: reader.arguments.given } }

/-- Take an option that has its value, or needs none. -/
def give
    (reader : ArgumentReader)
    (form : OptionForm)
    (value : String) :
    Except Stop ArgumentReader :=
  match form.kind with
  | .version => .error .version
  | .help => .error .help
  | .repeated => .ok (reader.record form value)
  | .flag =>
    if reader.arguments.has form.name then .error .refused
    else .ok (reader.record form value)
  | .value isValid =>
    if reader.arguments.has form.name || !isValid value then .error .refused
    else .ok (reader.record form value)

/-- Take an option with the value attached to it, if there is one. -/
def take
    (reader : ArgumentReader)
    (form : OptionForm)
    (attached : Option String) :
    Except Stop ArgumentReader :=
  match form.takesValue, attached with
  | true, some value => reader.give form value
  | true, none => .ok { reader with pending := some form }
  | false, none => reader.give form ""
  | false, some _ => .error .refused

/-- Take an operand. -/
def takeOperand
    (isValid : String → Bool)
    (reader : ArgumentReader)
    (operand : String) :
    Except Stop ArgumentReader :=
  if reader.arguments.operand.isSome || !isValid operand then .error .refused
  else
    .ok { reader with
      arguments := { reader.arguments with operand := some operand } }

/-- Take letters behind one dash. -/
def takeLetters
    (forms : List OptionForm) :
    List Char → ArgumentReader → Except Stop ArgumentReader
  | [], reader => .ok reader
  | letter :: rest, reader =>
    match forms.find? (·.letter == some letter) with
    | none => .error .refused
    | some form =>
      if form.takesValue then
        match rest with
        | [] => reader.take form none
        | '=' :: value => reader.take form (some (String.ofList value))
        | value => reader.take form (some (String.ofList value))
      else do
        takeLetters forms rest (← reader.take form none)

/-- Take a name behind two dashes. -/
def takeName
    (forms : List OptionForm)
    (chars : List Char)
    (reader : ArgumentReader) :
    Except Stop ArgumentReader :=
  let name := String.ofList (chars.takeWhile (· != '='))
  let attached := match chars.dropWhile (· != '=') with
    | [] => none
    | _ :: value => some (String.ofList value)
  match forms.find? fun form => form.name == name ||
      form.aliases.contains name with
  | none => .error .refused
  | some form => reader.take form attached

/-- Take the next argument. -/
def next
    (forms : List OptionForm)
    (isOperand : String → Bool)
    (reader : ArgumentReader)
    (argument : String) :
    Except Stop ArgumentReader :=
  if reader.isOperandsOnly then reader.takeOperand isOperand argument
  else
    match argument.toList, reader.pending with
    | '-' :: _ :: _, some _ => .error .refused
    | _, some form => reader.give form argument
    | ['-', '-'], none => .ok { reader with isOperandsOnly := true }
    | '-' :: '-' :: name, none => reader.takeName forms name
    | '-' :: letter :: letters, none =>
      reader.takeLetters forms (letter :: letters)
    | _, none => reader.takeOperand isOperand argument

end ArgumentReader

namespace Arguments

/-- Read arguments. -/
def read
    (forms : List OptionForm)
    (isOperand : String → Bool)
    (arguments : List String) :
    Except Stop Arguments := do
  let reader ← arguments.foldlM
    (ArgumentReader.next forms isOperand) ArgumentReader.initial
  match reader.pending with
  | some _ => .error .refused
  | none => return reader.arguments

end Arguments

/-- The largest size. -/
def maxSize : Nat := 18446744073709551615

/-- The size that a decimal numeral, perhaps after a plus, stands for. -/
def size? (numeral : String) : Option Nat :=
  let digits := match numeral.toList with
    | '+' :: digits => digits
    | digits => digits
  if digits.isEmpty || !digits.all Char.isDigit then none
  else
    let size := digits.foldl
      (fun read digit => 10 * read + (digit.toNat - 48)) 0
    if size ≤ maxSize then some size else none

/-- Whether a text may name a file. -/
def isPath (text : String) : Bool := !text.isEmpty

/-- Whether a text is a numeral of a size. -/
def isSize (text : String) : Bool := (size? text).isSome

/-- Any text. -/
def isText (_ : String) : Bool := true

end Command
end WordSwitch
