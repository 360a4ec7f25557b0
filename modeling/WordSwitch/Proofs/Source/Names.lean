import WordSwitch.Proofs.Source.Enumeration
import WordSwitch.Proofs.Source.Properties

/-!
# Names in source text

What a name stands for where a function returns it, and which names a text may
declare.  Macros are replaced before anything else, keywords are no names, and
the parameters of a function hide what is declared around it.  An enumerator
that shares its name with a function or with something in an included file is
not told apart from it.
-/

namespace WordSwitch
namespace Source

namespace Environment

/-- The keywords of C11 or C++17, and the other names to which the language
gives a meaning. -/
def keywords (environment : Environment) : List String :=
  ["auto", "break", "case", "char", "const", "continue", "default", "do",
    "double", "else", "enum", "extern", "float", "for", "goto", "if", "inline",
    "int", "long", "register", "return", "short", "signed", "sizeof", "static",
    "struct", "switch", "typedef", "union", "unsigned", "void", "volatile",
    "while", "_Pragma", "__VA_ARGS__", "__func__"] ++
    if environment.isCplusplus then
      ["alignas", "alignof", "and", "and_eq", "asm", "bitand", "bitor", "bool",
        "catch", "char16_t", "char32_t", "class", "compl", "const_cast",
        "constexpr", "decltype", "delete", "dynamic_cast", "explicit", "export",
        "false", "friend", "mutable", "namespace", "new", "noexcept", "not",
        "not_eq", "nullptr", "operator", "or", "or_eq", "private", "protected",
        "public", "reinterpret_cast", "static_assert", "static_cast",
        "template", "this", "thread_local", "throw", "true", "try", "typeid",
        "typename", "using", "virtual", "wchar_t", "xor", "xor_eq",
        "__has_include"]
    else
      ["restrict", "_Alignas", "_Alignof", "_Atomic", "_Bool", "_Complex",
        "_Generic", "_Imaginary", "_Noreturn", "_Static_assert",
        "_Thread_local"]

/-- The names that have a meaning in every text. -/
def reserved (environment : Environment) : List String :=
  environment.predefinedMacros ++ environment.keywords

end Environment

/-! ## Names that are returned -/

/-- What the statements of a sequence and of the switches in it return. -/
def Sequence.answers : Sequence → List (List String)
  | nil => []
  | answer path next => path :: next.answers
  | switch _ body next => body.answers ++ next.answers
  | unused _ next | label _ next | otherwise next | delegate _ _ next
  | leave next => next.answers

namespace Function

/-- What the statements of a function return. -/
def answers (function : Function) : List (List String) :=
  function.sequence.answers

/-- The names of the parameters of a function. -/
def parameterNames (function : Function) : List String :=
  function.parameters.map Parameter.name

end Function

/-- What is declared outside of functions. -/
structure Scope where
  environment : Environment
  /-- The macros that are replaced wherever their names stand. -/
  macros : List String
  functions : List Function
  members : List Enumerator
  /-- The further names that included files and the implementation define or
  declare. -/
  included : List String

/-- The name of a macro that needs no arguments. -/
def Macro.emptyName? : Macro → Option String
  | empty name => some name
  | function _ _ _ => none

/-- What surrounds the functions of a text, given the members of its enumeration
and the names that included files and the implementation define or declare. -/
def Definitions.scope
    (definitions : Definitions)
    (environment : Environment)
    (members : List Enumerator)
    (included : List String) :
    Scope :=
  ⟨environment, definitions.macros.filterMap Macro.emptyName?,
    definitions.functions, members, included⟩

namespace Scope

/-- The names that stand for something else than an enumerator in a function
of a scope. -/
def taken (scope : Scope) (function : Function) : List String :=
  scope.macros ++ scope.environment.reserved ++ function.parameterNames ++
    scope.functions.map Function.name ++ scope.included

end Scope

/-! ## Names that are declared -/

/-- The enumeration that a type mentions. -/
def Result.enumerations : Result → List String
  | integer _ => []
  | enumeration name _ => [name]

/-- The names that the definition of a function declares or needs declared around
it. -/
def Heading.names (heading : Heading) : List String :=
  heading.name :: heading.result.enumerations ++ heading.namespaces

end Source
end WordSwitch
