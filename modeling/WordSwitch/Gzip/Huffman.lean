import WordSwitch.Gzip.Bits

/-!
# Huffman codes

A canonical code is given by the length of the codeword of each symbol.
Codewords of one length are consecutive numbers in the order of their symbols,
and follow on those of smaller lengths.  A code is complete if every string
that is long enough begins with a codeword.
-/

namespace WordSwitch
namespace Gzip

/-- A canonical code: how many codewords each length from one to fifteen has,
and the symbols in the order of their codewords. -/
structure Huffman where
  counts : List Nat
  symbols : Array Nat
deriving Repr

namespace Huffman

/-- The lengths that codewords may have. -/
def codeLengths : List Nat := (List.range 15).map (· + 1)

/-- The symbols whose codewords have some length. -/
def symbolsOfLength (lengths : List Nat) (length : Nat) : List Nat :=
  lengths.zipIdx.filterMap fun (other, symbol) =>
    if other = length then some symbol else none

/-- The code with the given lengths, zero for symbols without a codeword. -/
def ofLengths (lengths : List Nat) : Huffman :=
  let groups := codeLengths.map (symbolsOfLength lengths)
  ⟨groups.map List.length, groups.flatten.toArray⟩

/-- How many strings of fifteen bits begin with a codeword. -/
def coverage (code : Huffman) : Nat :=
  code.counts.foldl (fun covered count => 2 * covered + count) 0

/-- Whether every string of fifteen bits begins with just one codeword. -/
def isComplete (code : Huffman) : Bool :=
  code.coverage == 32768

/-- Whether there is no codeword, or only one and that of one bit. -/
def isTrivial (code : Huffman) : Bool :=
  code.symbols.isEmpty ||
    (code.symbols.size == 1 && code.counts.head? == some 1)

/-- Read a symbol, given the counts for the lengths not yet tried, the bits
read so far as a number, the first codeword of the previous length doubled,
and the number of shorter codewords.  It fails once no codeword is left. -/
def decodeFrom
    (symbols : Array Nat) :
    (counts : List Nat) → (read first shorter : Nat) → Reading Nat
  | [], _, _, _ => throw .corrupt
  | count :: counts, read, first, shorter => do
    let read := read + (← Bits.next)
    if read < first + count then
      match symbols[shorter + (read - first)]? with
      | some symbol => return symbol
      | none => throw .corrupt
    else if shorter + count = symbols.size then
      throw .corrupt
    else
      decodeFrom symbols counts (2 * read) (2 * (first + count))
        (shorter + count)

/-- Read a symbol. -/
def decode (code : Huffman) : Reading Nat :=
  decodeFrom code.symbols code.counts 0 0 0

end Huffman

end Gzip
end WordSwitch
