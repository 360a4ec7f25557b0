/-!
# Bytes

Words, lines and file contents are finite sequences of bytes.  This module
holds the ASCII classes and case maps of single bytes, and the ways a byte
string is taken apart: cutting at a delimiter, and splitting into pieces, tokens
and lines.
-/

namespace WordSwitch

/-- A finite sequence of bytes. -/
abbrev Bytes := List UInt8

namespace Byte

/-- ASCII `A` to `Z`. -/
def isUpper (byte : UInt8) : Bool :=
  65 ≤ byte && byte ≤ 90

/-- ASCII `a` to `z`. -/
def isLower (byte : UInt8) : Bool :=
  97 ≤ byte && byte ≤ 122

/-- An ASCII letter of either case. -/
def isLetter (byte : UInt8) : Bool :=
  isUpper byte || isLower byte

/-- Space, tab, line feed, form feed or carriage return. -/
def isSpace (byte : UInt8) : Bool :=
  byte == 32 || byte == 9 || byte == 10 || byte == 12 || byte == 13

/-- The lowercase form of an ASCII letter; any other byte is kept. -/
def lower (byte : UInt8) : UInt8 :=
  if isUpper byte then byte + 32 else byte

/-- The uppercase form of an ASCII letter; any other byte is kept. -/
def upper (byte : UInt8) : UInt8 :=
  if isLower byte then byte - 32 else byte

/-- The line feed that ends a line. -/
def lineFeed : UInt8 := 10

end Byte

namespace Bytes

/-- Replace every ASCII letter by its lowercase form. -/
def lower (bytes : Bytes) : Bytes :=
  bytes.map Byte.lower

/-- Cut at the first occurrence of a delimiter, which belongs to neither
part; `none` if it does not occur. -/
def cutAt
    (delimiter : UInt8)
    (bytes : Bytes) :
    Option (Bytes × Bytes) :=
  if bytes.contains delimiter then
    some (bytes.takeWhile (· != delimiter),
      (bytes.dropWhile (· != delimiter)).drop 1)
  else
    none

/-- Put one byte in front of the first piece. -/
def extendFirst (byte : UInt8) : List Bytes → List Bytes
  | [] => [[byte]]
  | piece :: rest => (byte :: piece) :: rest

/-- The pieces between the separator bytes; there is always one more piece
than there are separators. -/
def pieces
    (isSeparator : UInt8 → Bool)
    (bytes : Bytes) :
    List Bytes :=
  bytes.foldr
    (fun byte parts =>
      if isSeparator byte then [] :: parts else extendFirst byte parts)
    [[]]

@[simp] theorem pieces_nil (isSeparator : UInt8 → Bool) :
    pieces isSeparator [] = [[]] := rfl

@[simp] theorem pieces_cons
    (isSeparator : UInt8 → Bool)
    (byte : UInt8)
    (bytes : Bytes) :
    pieces isSeparator (byte :: bytes) =
      if isSeparator byte then [] :: pieces isSeparator bytes
      else extendFirst byte (pieces isSeparator bytes) := rfl

/-- The maximal runs of bytes that are not ASCII whitespace. -/
def tokens (bytes : Bytes) : List Bytes :=
  (pieces Byte.isSpace bytes).filter (! ·.isEmpty)

/-- The pieces that a line feed ends. -/
def completeLines (bytes : Bytes) : List Bytes :=
  (pieces (· == Byte.lineFeed) bytes).dropLast

/-- The lines of a text.  What follows the last line feed is a line unless
it is empty. -/
def lines (bytes : Bytes) : List Bytes :=
  match (pieces (· == Byte.lineFeed) bytes).getLast? with
  | none | some [] => completeLines bytes
  | some last => completeLines bytes ++ [last]

/-- The bytes of a text in UTF-8. -/
def ofString (text : String) : Bytes :=
  text.toUTF8.toList

/-- Every byte read as the character with its code. -/
def characters (bytes : Bytes) : String :=
  String.ofList (bytes.map fun byte => Char.ofNat byte.toNat)

end Bytes

end WordSwitch
