import Mathlib.Data.List.Basic
import WordSwitch.Lexicon.Label

/-!
# Lexemes of source text

Source text is divided into lines, and each line into lexemes: runs of letters,
digits and underscores, character constants, string literals, and single marks.
Operators of several characters are sequences of marks.  What goes beyond the
end of its line is not read: a quote that is not closed, a comment that another
mark has to end, or a line that is joined with the next one.
-/

namespace WordSwitch
namespace Source

/-- A piece of a line. -/
inductive Lexeme where
  /-- Letters, digits and underscores. -/
  | run (chars : List Char)
  /-- What stands between single quotes. -/
  | character (written : List Char)
  /-- A string literal, the content of which nothing depends on. -/
  | literal
  /-- Something that goes beyond the line. -/
  | unfinished
  /-- Any other character. -/
  | mark (char : Char)
deriving DecidableEq, Repr

/-- Where the next character of a line stands. -/
inductive Mode where
  | between
  /-- Inside a character constant, perhaps after a backslash. -/
  | quoted (written : List Char) (isEscaped : Bool)
  /-- Inside a string literal, perhaps after a backslash. -/
  | literal (isEscaped : Bool)
deriving DecidableEq, Repr

namespace Lexeme

/-- Put a character in front of the run that some lexemes begin with. -/
def extendRun (char : Char) : List Lexeme → List Lexeme
  | run chars :: rest => run (char :: chars) :: rest
  | lexemes => run [char] :: lexemes

/-- What a comment leaves of the rest of its line, which a backslash at the end
would join with the next line. -/
def ofComment (comment : List Char) : List Lexeme :=
  if comment.getLast? = some '\\' then [unfinished] else []

/-- The lexemes of a line. -/
def ofLine : Mode → List Char → List Lexeme
  | .between, [] => []
  | _, [] => [unfinished]
  | .between, char :: rest =>
    if Label.isLater char then
      if rest.head?.any Label.isLater then extendRun char (ofLine .between rest)
      else run [char] :: ofLine .between rest
    else if char = ' ' then ofLine .between rest
    else if char = '"' then ofLine (.literal false) rest
    else if char = '\'' then ofLine (.quoted [] false) rest
    else if char = '/' ∧ rest.head? = some '/' then ofComment rest
    else if char = '/' ∧ rest.head? = some '*' then [unfinished]
    else mark char :: ofLine .between rest
  | .quoted written isEscaped, char :: rest =>
    if isEscaped then ofLine (.quoted (written ++ [char]) false) rest
    else if char = '\'' then character written :: ofLine .between rest
    else ofLine (.quoted (written ++ [char]) (char == '\\')) rest
  | .literal isEscaped, char :: rest =>
    if isEscaped then ofLine (.literal false) rest
    else if char = '"' then literal :: ofLine .between rest
    else ofLine (.literal (char == '\\')) rest

end Lexeme

/-! ## Atoms and brackets -/

/-- A kind of bracket. -/
inductive Bracket where
  | round
  | square
  | curly
deriving DecidableEq, Repr

/-- A lexeme that is no bracket, or the name of a header. -/
inductive Atom where
  | word (name : String)
  /-- An unsigned number, perhaps marked as one of 64 bits. -/
  | numeral (value : Nat) (isLong : Bool)
  | character (byte : UInt8)
  | literal
  /-- The name of a header, with its delimiters. -/
  | header (written : List Char)
  | mark (char : Char)
  | invalid
deriving DecidableEq, Repr

/-- An atom or one side of a pair of brackets. -/
inductive Token where
  | atom (atom : Atom)
  | opening (bracket : Bracket)
  | closing (bracket : Bracket)
deriving DecidableEq, Repr

namespace Token

/-- The value of a digit in a base of at most sixteen. -/
def digit? (base : Nat) (char : Char) : Option Nat :=
  let code := char.toNat
  let value :=
    if char.isDigit then code - '0'.toNat
    else if 'a' ≤ char ∧ char ≤ 'f' then code - 'a'.toNat + 10
    else base
  if value < base then some value else none

/-- The number that some digits denote, the first of them the most
significant. -/
def number? (base : Nat) (digits : List Char) : Option Nat :=
  digits.foldlM (fun sum char =>
    (digit? base char).map fun value => base * sum + value) 0

/-- The suffix of numbers of 64 bits. -/
def longSuffix : List Char := ['U', 'L', 'L']

/-- A run that begins with a digit.  No number is written to base eight. -/
def numeral (chars : List Char) : Atom :=
  match chars with
  | '0' :: 'x' :: digits =>
    if longSuffix.isSuffixOf digits then
      match number? 16 (digits.take (digits.length - 3)) with
      | some value => .numeral value true
      | none => .invalid
    else
      match number? 16 digits with
      | some value => .numeral value false
      | none => .invalid
  | '0' :: _ :: _ => .invalid
  | digits =>
    match number? 10 digits with
    | some value => .numeral value false
    | none => .invalid

/-- The byte that a character constant denotes. -/
def character (written : List Char) : Atom :=
  match written with
  | [char] =>
    if char.toNat < 128 then .character (UInt8.ofNat char.toNat) else .invalid
  | ['\\', '\''] => .character 39
  | ['\\', '\\'] => .character 92
  | ['\\', 'x', high, low] =>
    match number? 16 [high, low] with
    | some value => .character (UInt8.ofNat value)
    | none => .invalid
  | _ => .invalid

/-- The token that a lexeme is. -/
def ofLexeme : Lexeme → Token
  | .run chars =>
    if chars.head?.any Char.isDigit then atom (numeral chars)
    else atom (.word (String.ofList chars))
  | .character written => atom (character written)
  | .literal => atom .literal
  | .unfinished => atom .invalid
  | .mark '(' => opening .round
  | .mark ')' => closing .round
  | .mark '[' => opening .square
  | .mark ']' => closing .square
  | .mark '\x7b' => opening .curly
  | .mark '\x7d' => closing .curly
  | .mark '\\' => atom .invalid
  | .mark char => atom (.mark char)

end Token

/-! ## Lines -/

/-- Whether some characters are a name of a header up to the mark that closes
it. -/
def isClosedBy (closing : Char) (chars : List Char) : Bool :=
  chars.getLast? == some closing && chars.dropLast != [] &&
    chars.dropLast.all fun char => char != closing && char != '\n'

/-- Whether some characters are the name of a header with its delimiters. -/
def isHeaderName : List Char → Bool
  | '<' :: chars => isClosedBy '>' chars
  | '"' :: chars => isClosedBy '"' chars
  | _ => false

/-- The atom that is written behind the name of the directive for a header. -/
def headerAtom (chars : List Char) : Atom :=
  if isHeaderName chars then .header chars else .invalid

/-- The tokens of a line, some of them perhaps invalid. -/
def Token.written (line : List Char) : List Token :=
  match line.dropPrefix? "#include ".toList with
  | some header =>
    [.atom (.mark '#'), .atom (.word "include"), .atom (headerAtom header)]
  | none => (Lexeme.ofLine .between line).map Token.ofLexeme

/-- The tokens of a line.  A line with an invalid one is invalid as a whole. -/
def Token.ofLine (line : List Char) : List Token :=
  if .atom .invalid ∈ written line then [.atom .invalid] else written line

/-- The tokens of the lines of a text. -/
def tokenLines (text : List Char) : List (List Token) :=
  (text.splitOn '\n').map Token.ofLine

end Source
end WordSwitch
