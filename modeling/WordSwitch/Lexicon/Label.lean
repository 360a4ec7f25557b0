import WordSwitch.Bytes

/-!
# Labels

A label names an enumerator in the generated code, so it has to be an ASCII
identifier when it is read from a word list.  A word without a label gets one
of its own, in which a hyphen becomes an underscore and an underscore becomes
two.
-/

namespace WordSwitch
namespace Label

/-- An ASCII letter or underscore. -/
def isFirst (char : Char) : Bool :=
  char.isAlpha || char == '_'

/-- An ASCII letter, digit or underscore. -/
def isLater (char : Char) : Bool :=
  char.isAlphanum || char == '_'

/-- Whether characters spell an identifier. -/
def spellsIdentifier : List Char → Bool
  | [] => false
  | first :: rest => isFirst first && rest.all isLater

/-- Whether a text is an identifier. -/
def isIdentifier (text : String) : Bool :=
  spellsIdentifier text.toList

/-- What stands for one byte of a word in its own label. -/
def escapeByte (byte : UInt8) : Bytes :=
  if byte == 95 then [95, 95]
  else if byte == 45 then [95]
  else [byte]

/-- The label of a word that declares none. -/
def ofWord (word : Bytes) : String :=
  Bytes.characters (word.flatMap escapeByte)

end Label
end WordSwitch
