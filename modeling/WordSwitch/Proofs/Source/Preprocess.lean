import WordSwitch.Program.Execution
import WordSwitch.Proofs.Source.Syntax

/-!
# Reading source text

Directives choose among the lines of a text and define macros.  A macro with
parameters is read as a function of its arguments.  That is what its expansion
means if the body and every use of a parameter in it stand in brackets, so no
other macro is read but one without a body.  Names are replaced where they are
used and not while a text is read.  What included files declare is no part of
what is read.
-/

namespace WordSwitch
namespace Source

/-! ## Environments -/

/-- How the bytes of a number stand in memory, and whether predefined macros
tell. -/
inductive ByteOrder where
  | big
  | little
  /-- The least significant byte comes first, but no macro says so. -/
  | untold
deriving DecidableEq, Repr

/-- What the meaning of source text depends on. -/
structure Environment where
  byteOrder : ByteOrder
  isCharSigned : Bool
  /-- Whether the text is read as C++. -/
  isCplusplus : Bool
deriving DecidableEq, Repr

namespace Environment

/-- The values of characters and of memory. -/
def platform (environment : Environment) : Program.Platform :=
  ⟨environment.byteOrder == .big, environment.isCharSigned⟩

/-- The macros that are always defined: those of C11 or C++17 and those that
tell the order of bytes. -/
def predefinedMacros (environment : Environment) : List String :=
  ["__DATE__", "__FILE__", "__LINE__", "__STDC_HOSTED__", "__TIME__"] ++
    (if environment.isCplusplus then
      ["__cplusplus", "__STDCPP_DEFAULT_NEW_ALIGNMENT__"]
    else ["__STDC__", "__STDC_VERSION__"]) ++
    if environment.byteOrder = .untold then []
    else ["__BYTE_ORDER__", "__ORDER_BIG_ENDIAN__"]

/-- The number that a predefined macro stands for in a condition. -/
def predefined? (environment : Environment) (name : String) : Option Nat :=
  if name = "__ORDER_BIG_ENDIAN__" then
    if environment.byteOrder = .untold then none else some 4321
  else if name = "__BYTE_ORDER__" then
    match environment.byteOrder with
    | .big => some 4321
    | .little => some 1234
    | .untold => none
  else none

end Environment

/-! ## Macros -/

/-- A macro. -/
inductive Macro where
  /-- A macro that stands for nothing. -/
  | empty (name : String)
  /-- A macro with parameters. -/
  | function (name : String) (parameters : List String) (body : Expression)
deriving DecidableEq, Repr

/-- The name of a macro. -/
def Macro.name : Macro → String
  | empty name | function name _ _ => name

/-- Whether a macro is defined. -/
def isDefined
    (environment : Environment)
    (macros : List Macro)
    (name : String) :
    Bool :=
  environment.predefinedMacros.contains name || macros.any (·.name == name)

namespace Phrase

/-- Whether every use of some parameters stands in brackets of its own. -/
def isGuarded (parameters : List String) : Phrase → Bool
  | nil => true
  | atom (.word name) next =>
    !parameters.contains name && next.isGuarded parameters
  | atom _ next => next.isGuarded parameters
  | group .round (atom (.word _) nil) next => next.isGuarded parameters
  | group _ inside next =>
    inside.isGuarded parameters && next.isGuarded parameters

/-- Names between commas. -/
def names? : Phrase → Option (List String)
  | atom (.word name) nil => some [name]
  | atom (.word name) (atom (.mark ',') next) => next.names?.map (name :: ·)
  | _ => none

/-- The macro that is defined by what follows the name of the directive. -/
def macro? : Phrase → Option Macro
  | atom (.word name) nil => some (.empty name)
  | atom (.word name) (group .round parameters (group .round inside nil)) =>
    parameters.names?.bind fun parameters =>
      if inside.isGuarded parameters then
        (group .round inside nil).expression?.map
          (.function name parameters)
      else none
  | _ => none

/-- Whether a condition holds.  A name without a definition stands for
zero. -/
def condition? (environment : Environment) (macros : List Macro) :
    Phrase → Option Bool
  | atom (.word "defined") (group .round (atom (.word name) nil) next) =>
    let holds := isDefined environment macros name
    match next with
    | nil => some holds
    | atom (.mark '&') (atom (.mark '&') rest) =>
      (rest.condition? environment macros).map (holds && ·)
    | _ => none
  | atom (.word first) (atom (.mark '=') (atom (.mark '=')
      (atom (.word second) nil))) =>
    some ((environment.predefined? first).getD 0 ==
      (environment.predefined? second).getD 0)
  | _ => none

end Phrase

/-! ## Directives -/

/-- Follow the directives in some lines, given the conditions that are open,
the innermost first, and the macros that are defined.  The result is what is
left of the text, with the macros at its end. -/
def preprocess
    (environment : Environment) :
    (conditions : List Bool) →
    (macros : List Macro) →
    List (List Token) →
    Option (List Macro × List Token)
  | conditions, macros, [] =>
    if conditions.isEmpty then some (macros, []) else none
  | _, _, [.atom .invalid] :: _ => none
  | conditions, macros, (.atom (.mark '#') :: directive) :: rest =>
    match directive with
    | [.atom (.word "ifdef"), .atom (.word name)] =>
      preprocess environment
        (isDefined environment macros name :: conditions) macros rest
    | [.atom (.word "ifndef"), .atom (.word name)] =>
      preprocess environment
        ((!isDefined environment macros name) :: conditions) macros rest
    | .atom (.word "if") :: written =>
      ((Phrase.ofTokens? written).bind
        (·.condition? environment macros)).bind fun holds =>
          preprocess environment (holds :: conditions) macros rest
    | [.atom (.word "else")] =>
      match conditions with
      | holds :: outer => preprocess environment ((!holds) :: outer) macros rest
      | [] => none
    | [.atom (.word "endif")] =>
      match conditions with
      | _ :: outer => preprocess environment outer macros rest
      | [] => none
    | .atom (.word "define") :: written =>
      if conditions.all id then
        ((Phrase.ofTokens? written).bind Phrase.macro?).bind fun definition =>
          preprocess environment conditions (definition :: macros) rest
      else preprocess environment conditions macros rest
    | [.atom (.word "include"), .atom (.header _)] =>
      preprocess environment conditions macros rest
    | _ => none
  | conditions, macros, line :: rest =>
    (preprocess environment conditions macros rest).map
      fun (macros, tokens) =>
        (macros, if conditions.all id then line ++ tokens else tokens)

/-- What a text defines. -/
structure Definitions where
  macros : List Macro
  functions : List Function
  /-- What is said of each function in front of its parameters. -/
  headings : List Heading
deriving DecidableEq, Repr

/-- Read a text that stands inside of some open conditions and closes them.  Some
macros are defined before it. -/
def readAfter
    (environment : Environment)
    (before : List Macro)
    (conditions : List Bool)
    (text : String) :
    Option Definitions :=
  (preprocess environment conditions before (tokenLines text.toList)).bind
    fun (macros, tokens) =>
      ((Phrase.ofTokens? tokens).bind Phrase.functions?).map fun functions =>
        ⟨macros, functions.map Prod.snd, functions.map Prod.fst⟩

/-- Read a text before which no macro is defined. -/
def read
    (environment : Environment)
    (conditions : List Bool)
    (text : String) :
    Option Definitions :=
  readAfter environment [] conditions text

end Source
end WordSwitch
