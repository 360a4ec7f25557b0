import Mathlib.Data.List.Basic
import WordSwitch.Trie.Branches
import WordSwitch.WordList.Numeral

/-!
# Decoding outlines

An outline is read back line by line.  The cells in front of a chunk tell how
deep its node stands, the chunk is what its quotes hold, and the chunks on the
way to a node that has an enumerator spell a word.
-/

namespace WordSwitch

/-- What an outline says: the fallback, and under each heading its length with
the words that are spelled there. -/
structure Listing where
  fallback : Enumerator
  sections : List (Nat × List Spelling)
deriving DecidableEq, Repr

namespace Listing

/-- What the row of a node says. -/
structure Row where
  /-- The number of cells in front of the chunk, none of them for the root. -/
  depth : Nat
  chunk : Bytes
  terminal : Option Enumerator
deriving DecidableEq, Repr

/-- What a line says. -/
inductive Item where
  | blank
  | heading (length : Nat)
  | row (row : Row)
deriving DecidableEq, Repr

/-! ## Lines -/

/-- The byte whose code a character has. -/
def byteOf (char : Char) : UInt8 :=
  UInt8.ofNat char.toNat

/-- The number that digits of some base stand for. -/
def number? (base : Nat) (digits : List Char) : Option Nat :=
  Numeral.magnitude? base (digits.map byteOf)

/-- The number in decimal, perhaps after a minus sign. -/
def integer? : List Char → Option Int
  | '-' :: digits => (number? 10 digits).map fun size => -(size : Int)
  | digits => (number? 10 digits).map Int.ofNat

/-- The enumerator in ` => label (value)`. -/
def enumerator? (chars : List Char) : Option Enumerator :=
  match chars.splitOn ' ' with
  | [[], ['=', '>'], label, '(' :: valued] =>
    match valued.splitOn ')' with
    | [numeral, []] =>
      (integer? numeral).map fun value => ⟨String.ofList label, value⟩
    | _ => none
  | _ => none

/-- What follows a chunk: nothing, or an enumerator. -/
def terminal? (chars : List Char) : Option (Option Enumerator) :=
  if chars = [] then some none else (enumerator? chars).map some

/-- The byte that hexadecimal digits stand for. -/
def hexByte? (digits : List Char) : Option UInt8 :=
  (number? 16 digits).map UInt8.ofNat

/-- Put a byte in front of what was read after it. -/
def prepend (byte : UInt8) (read : Bytes × List Char) : Bytes × List Char :=
  (byte :: read.1, read.2)

/-- The bytes up to the closing quote, and what follows it. -/
def unquote? : List Char → Option (Bytes × List Char)
  | [] => none
  | '"' :: rest => some ([], rest)
  | '\\' :: '"' :: rest => (unquote? rest).map (prepend 34)
  | '\\' :: '\\' :: rest => (unquote? rest).map (prepend 92)
  | '\\' :: 'x' :: high :: low :: rest =>
    match hexByte? [high, low] with
    | some byte => (unquote? rest).map (prepend byte)
    | none => none
  | '\\' :: _ => none
  | char :: rest => (unquote? rest).map (prepend (byteOf char))

/-- The row of a node below the root: cells of four characters, a chunk between
quotes, and what follows it. -/
def row? (chars : List Char) : Option Row :=
  let cells := chars.takeWhile (· != '"')
  match unquote? (chars.drop (cells.length + 1)) with
  | none => none
  | some (chunk, after) =>
    (terminal? after).map fun terminal => ⟨cells.length / 4, chunk, terminal⟩

/-- What follows `length` in a heading. -/
def heading? (chars : List Char) : Option Item :=
  match chars.splitOn ':' with
  | [numeral, []] => (number? 10 numeral).map .heading
  | _ => none

/-- What follows the mark of the root, whose row has neither cells nor a
chunk. -/
def rootRow? (chars : List Char) : Option Item :=
  (enumerator? chars).map fun enumerator => .row ⟨0, [], some enumerator⟩

/-- What a line below the first says. -/
def item? (line : List Char) : Option Item :=
  if line = [] then some .blank
  else
    match line.dropPrefix? "length ".toList,
      line.dropPrefix? "(root)".toList with
    | some rest, _ => heading? rest
    | none, some rest => rootRow? rest
    | none, none => (row? line).map .row

/-- The fallback on the first line. -/
def fallback? (line : List Char) : Option Enumerator :=
  (line.dropPrefix? "fallback".toList).bind enumerator?

/-! ## Words -/

/-- The words that rows spell.  The chunks on the way to the row before are
known, and a row keeps as many of them as nodes stand above it. -/
def words : (path : List Bytes) → List Row → List Spelling
  | _, [] => []
  | path, row :: rest =>
    let path := path.take (row.depth - 1) ++ [row.chunk]
    Branches.ownSpelling path.flatten row.terminal ++ words path rest

/-- The rows in front of the first heading, and the headings with the rows under
each. -/
def headed : List Item → List Row × List (Nat × List Row)
  | [] => ([], [])
  | .blank :: rest => headed rest
  | .heading length :: rest => ([], (length, (headed rest).1) :: (headed rest).2)
  | .row row :: rest => (row :: (headed rest).1, (headed rest).2)

/-- What the lines of an outline say. -/
def ofLines? : List (List Char) → Option Listing
  | [] => none
  | first :: lines =>
    match fallback? first, lines.mapM item? with
    | some fallback, some items =>
      match headed items with
      | ([], sections) =>
        some ⟨fallback,
          sections.map fun (length, rows) => (length, words [] rows)⟩
      | _ => none
    | _, _ => none

/-- What an outline says; `none` if some text is no outline. -/
def decode? (text : String) : Option Listing :=
  ofLines? (text.toList.splitOn '\n')

end Listing

end WordSwitch
