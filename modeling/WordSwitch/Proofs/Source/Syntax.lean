import WordSwitch.Proofs.Source.Phrase

/-!
# Syntax of source text

The expressions, statements and functions of the part of C in which recognizers
are written.  Names are told by their place, so reading does not tell keywords
from them.  Namespaces and linkage blocks hold functions as the text around them
does, and nothing else stands between functions.
-/

namespace WordSwitch
namespace Source

/-! ## Expressions -/

/-- An operator between two operands. -/
inductive Operator where
  /-- What separates arguments. -/
  | comma
  | or
  | shift
  | plus
  | minus
deriving DecidableEq, Repr

namespace Operator

/-- How strongly an operator binds its operands. -/
def strength : Operator → Nat
  | comma => 1
  | or => 2
  | shift => 3
  | plus | minus => 4

end Operator

/-- The types to which expressions are cast. -/
inductive Cast where
  /-- An unsigned integer of 64 bits. -/
  | long
  /-- An unsigned character. -/
  | byte
deriving DecidableEq, Repr

/-- Expressions.  A list of arguments is one expression in which commas
separate the arguments. -/
inductive Expression where
  | numeral (value : Nat) (isLong : Bool)
  | character (byte : UInt8)
  | name (name : String)
  | index (array : String) (position : Expression)
  | call (function : String) (arguments : Expression)
  | cast (type : Cast) (operand : Expression)
  | binary (operator : Operator) (left right : Expression)
deriving DecidableEq, Repr

namespace Expression

/-- Operands that wait for what stands on the right of their operators, the
last of them first. -/
abbrev Pending := List (Operator × Expression)

/-- Give a right operand to the operators that bind at least as strongly as
asked. -/
def reduce (strength : Nat) : Pending → Expression → Pending × Expression
  | [], right => ([], right)
  | (operator, left) :: pending, right =>
    if strength ≤ operator.strength then
      reduce strength pending (binary operator left right)
    else ((operator, left) :: pending, right)

/-- Let an operand wait for what stands on the right of an operator. -/
def wait (operator : Operator) (pending : Pending) (left : Expression) :
    Pending :=
  let (pending, left) := reduce operator.strength pending left
  (operator, left) :: pending

/-- Apply casts, the last of them first. -/
def castAll (casts : List Cast) (operand : Expression) : Expression :=
  casts.foldl (fun operand type => cast type operand) operand

end Expression

namespace Phrase

open Expression

/-- The type that a phrase in brackets names, if it is a cast. -/
def cast? : Phrase → Option Cast
  | atom (.word "uint64_t") nil => some .long
  | atom (.word "unsigned") (atom (.word "char") nil) => some .byte
  | _ => none

/-- Read an expression.  A left operand is there if an operator is expected
next. -/
def expressionFrom? :
    (pending : Pending) →
    (casts : List Cast) →
    (left : Option Expression) →
    Phrase →
    Option Expression
  | pending, _, some left, nil => some (reduce 0 pending left).2
  | pending, _, some left, atom (.mark ',') next =>
    expressionFrom? (wait .comma pending left) [] none next
  | pending, _, some left, atom (.mark '|') next =>
    expressionFrom? (wait .or pending left) [] none next
  | pending, _, some left, atom (.mark '<') (atom (.mark '<') next) =>
    expressionFrom? (wait .shift pending left) [] none next
  | pending, _, some left, atom (.mark '+') next =>
    expressionFrom? (wait .plus pending left) [] none next
  | pending, _, some left, atom (.mark '-') next =>
    expressionFrom? (wait .minus pending left) [] none next
  | _, _, some _, _ => none
  | pending, casts, none, atom (.numeral value isLong) next =>
    expressionFrom? pending [] (castAll casts (.numeral value isLong)) next
  | pending, casts, none, atom (.character byte) next =>
    expressionFrom? pending [] (castAll casts (.character byte)) next
  | pending, casts, none, atom (.word function) (group .round inside next) =>
    (expressionFrom? [] [] none inside).bind fun arguments =>
      expressionFrom? pending [] (castAll casts (.call function arguments)) next
  | pending, casts, none, atom (.word array) (group .square inside next) =>
    (expressionFrom? [] [] none inside).bind fun position =>
      expressionFrom? pending [] (castAll casts (.index array position)) next
  | pending, casts, none, atom (.word word) next =>
    expressionFrom? pending [] (castAll casts (.name word)) next
  | pending, casts, none, group .round inside next =>
    match cast? inside with
    | some type => expressionFrom? pending (type :: casts) none next
    | none =>
      (expressionFrom? [] [] none inside).bind fun operand =>
        expressionFrom? pending [] (castAll casts operand) next
  | _, _, none, _ => none

/-- The expression that a phrase is. -/
def expression? (phrase : Phrase) : Option Expression :=
  expressionFrom? [] [] none phrase

end Phrase

/-! ## Statements -/

/-- A sequence of statements and of labels for what follows them. -/
inductive Sequence where
  | nil
  /-- A statement that marks a parameter as unused. -/
  | unused (name : String) (next : Sequence)
  /-- A constant that labels what follows. -/
  | label (constant : Expression) (next : Sequence)
  /-- The label for all values without a constant. -/
  | otherwise (next : Sequence)
  /-- A statement that returns what a name stands for, perhaps qualified. -/
  | answer (path : List String) (next : Sequence)
  /-- A statement that returns what a function returns. -/
  | delegate (function : String) (arguments : Expression) (next : Sequence)
  /-- A statement that leaves the innermost switch. -/
  | leave (next : Sequence)
  | switch (subject : Expression) (body next : Sequence)
deriving DecidableEq, Repr

namespace Phrase

/-- Read a sequence.  A label is there while its constant is being read. -/
def sequenceFrom? : (label : Option Phrase) → Phrase → Option Sequence
  | none, nil => some .nil
  | none, atom (.word "case") next => sequenceFrom? (some nil) next
  | none, atom (.word "default") (atom (.mark ':') next) =>
    (sequenceFrom? none next).map .otherwise
  | none, atom (.word "break") (atom (.mark ';') next) =>
    (sequenceFrom? none next).map .leave
  | none, atom (.word "return")
      (atom (.word name) (atom (.mark ';') next)) =>
    (sequenceFrom? none next).map (.answer [name])
  | none, atom (.word "return")
      (atom (.word scope) (atom (.mark ':') (atom (.mark ':')
        (atom (.word name) (atom (.mark ';') next))))) =>
    (sequenceFrom? none next).map (.answer [scope, name])
  | none, atom (.word "return")
      (atom (.word function) (group .round inside
        (atom (.mark ';') next))) =>
    inside.expression?.bind fun arguments =>
      (sequenceFrom? none next).map (.delegate function arguments)
  | none, atom (.word "switch") (group .round inside
      (group .curly body next)) =>
    inside.expression?.bind fun subject =>
      (sequenceFrom? none body).bind fun body =>
        (sequenceFrom? none next).map (.switch subject body)
  | none, group .round (atom (.word "void") nil)
      (atom (.word name) (atom (.mark ';') next)) =>
    (sequenceFrom? none next).map (.unused name)
  | some written, atom (.mark ':') next =>
    written.expression?.bind fun constant =>
      (sequenceFrom? none next).map (.label constant)
  | some written, atom first next =>
    sequenceFrom? (some (written.append (atom first nil))) next
  | some written, group bracket inside next =>
    sequenceFrom? (some (written.append (group bracket inside nil))) next
  | _, _ => none

/-- The sequence of statements that a phrase is. -/
def sequence? (phrase : Phrase) : Option Sequence :=
  sequenceFrom? none phrase

end Phrase

/-! ## Functions -/

/-- What a function does. -/
inductive Body where
  /-- Copy some bits from where a parameter points, and return them. -/
  | load (bits : Nat) (pointer : String)
  | code (sequence : Sequence)
deriving DecidableEq, Repr

/-- A parameter: a place in the input, or else a size. -/
structure Parameter where
  name : String
  isPointer : Bool
deriving DecidableEq, Repr

/-- A function with its parameters. -/
structure Function where
  name : String
  parameters : List Parameter
  body : Body
deriving DecidableEq, Repr

/-- The type of what a function returns. -/
inductive Result where
  /-- An unsigned integer of so many bits. -/
  | integer (bits : Nat)
  /-- An enumeration, perhaps marked as one by a keyword. -/
  | enumeration (name : String) (isMarked : Bool)
deriving DecidableEq, Repr

/-- What is said of a function in front of its parameters. -/
structure Heading where
  /-- The namespaces around the function, the outermost first. -/
  namespaces : List String
  result : Result
  name : String
deriving DecidableEq, Repr

namespace Phrase

/-- Read parameters. -/
def parameters? : Phrase → Option (List Parameter)
  | atom (.word "const") (atom (.word "char") (atom (.mark '*')
      (atom (.word name) nil))) => some [⟨name, true⟩]
  | atom (.word "const") (atom (.word "char") (atom (.mark '*')
      (atom (.word name) (atom (.mark ',') next)))) =>
    next.parameters?.map (⟨name, true⟩ :: ·)
  | atom (.word "size_t") (atom (.word name) nil) => some [⟨name, false⟩]
  | atom (.word "size_t") (atom (.word name) (atom (.mark ',') next)) =>
    next.parameters?.map (⟨name, false⟩ :: ·)
  | _ => none

/-- The number of bits of a type that is copied. -/
def copiedBits? (type : String) : Option Nat :=
  if type = "uint16_t" then some 16
  else if type = "uint32_t" then some 32
  else if type = "uint64_t" then some 64
  else none

/-- Read the body of a function with some result type.  A function that
declares a variable, copies memory into all of it and returns it is a load. -/
def body? (result : Result) : Phrase → Option Body
  | atom (.word type) (atom (.word object) (atom (.mark ';')
      (atom (.word "memcpy") (group .round
        (atom (.mark '&') (atom (.word target) (atom (.mark ',')
          (atom (.word source) (atom (.mark ',')
            (atom (.word "sizeof") (atom (.word measured) nil)))))))
        (atom (.mark ';') (atom (.word "return") (atom (.word returned)
          (atom (.mark ';') nil)))))))) =>
    (copiedBits? type).bind fun bits =>
      if [target, measured, returned].all (· == object) ∧
          result = .integer bits then
        some (.load bits source)
      else none
  | phrase => phrase.sequence?.map .code

end Phrase

/-- The type that a single word names. -/
def Result.ofWord (type : String) : Result :=
  match Phrase.copiedBits? type with
  | some bits => .integer bits
  | none => .enumeration type false

/-- Read what stands in front of the parameters of a function: perhaps a storage
class, then the type of what it returns, and its name. -/
def Heading.ofAtoms? (namespaces : List String) :
    List Atom → Option Heading
  | [.word "static", .word "inline", .word type, .word name] =>
    some ⟨namespaces, .ofWord type, name⟩
  | [.word "static", .word "enum", .word type, .word name] =>
    some ⟨namespaces, .enumeration type true, name⟩
  | [.word "static", .word type, .word name] =>
    some ⟨namespaces, .ofWord type, name⟩
  | [.word "enum", .word type, .word name] =>
    some ⟨namespaces, .enumeration type true, name⟩
  | [.word type, .word name] => some ⟨namespaces, .ofWord type, name⟩
  | _ => none

/-- The names between double colons. -/
def path? : List Atom → Option (List String)
  | [.word name] => some [name]
  | .word name :: .mark ':' :: .mark ':' :: rest => (path? rest).map (name :: ·)
  | _ => none

/-- The namespaces that are opened by what stands in front of a bracket.  A
linkage block opens none. -/
def opened? : List Atom → Option (List String)
  | [.word "extern", .literal] => some []
  | .word "namespace" :: path => path? path
  | _ => none

namespace Phrase

/-- Read functions in some namespaces.  The atoms so far are those in front of
the next bracket. -/
def functionsFrom? :
    (namespaces : List String) →
    (head : List Atom) →
    Phrase →
    Option (List (Heading × Function))
  | _, [], nil => some []
  | namespaces, head, atom next rest =>
    functionsFrom? namespaces (head ++ [next]) rest
  | namespaces, head, group .round parameters (group .curly body next) =>
    (Heading.ofAtoms? namespaces head).bind fun heading =>
      parameters.parameters?.bind fun parameters =>
        (body? heading.result body).bind fun body =>
          (functionsFrom? namespaces [] next).map
            ((heading, ⟨heading.name, parameters, body⟩) :: ·)
  | namespaces, head, group .curly inside next =>
    (opened? head).bind fun inner =>
      (functionsFrom? (namespaces ++ inner) [] inside).bind fun functions =>
        (functionsFrom? namespaces [] next).map (functions ++ ·)
  | _, _, _ => none

/-- The functions that a phrase defines, with what is said of each. -/
def functions? (phrase : Phrase) : Option (List (Heading × Function)) :=
  functionsFrom? [] [] phrase

end Phrase

end Source
end WordSwitch
