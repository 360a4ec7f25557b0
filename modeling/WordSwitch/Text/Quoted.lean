import WordSwitch.Text.Printable
import WordSwitch.Text.Utf8

/-!
# Quoted text

Messages show a text between double quotes.  The quote and the backslash are
escaped by a backslash, four controls have names, and every other character
that is not printable is written as its code in hexadecimal.
-/

namespace WordSwitch
namespace Text

/-- Lowercase hexadecimal digits of a number, without leading zeros. -/
def hexadecimal (number : Nat) : List Char :=
  Nat.toDigits 16 number

/-- One character of quoted text. -/
def quoteChar (char : Char) : List Char :=
  if char = '"' then ['\\', '"']
  else if char = '\\' then ['\\', '\\']
  else if char = '\t' then ['\\', 't']
  else if char = '\n' then ['\\', 'n']
  else if char = '\r' then ['\\', 'r']
  else if char = '\x00' then ['\\', '0']
  else if isPrintable char then [char]
  else ['\\', 'u', '\x7b'] ++ hexadecimal char.toNat ++ ['\x7d']

/-- A text between quotes, with what would be invisible escaped. -/
def quote (text : String) : String :=
  String.ofList ('"' :: text.toList.flatMap quoteChar ++ ['"'])

/-- Bytes read as UTF-8 and quoted. -/
def quoteBytes (bytes : Bytes) : String :=
  quote (decode bytes)

end Text
end WordSwitch
