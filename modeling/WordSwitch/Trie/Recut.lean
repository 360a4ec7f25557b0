import WordSwitch.Ascending
import WordSwitch.Trie.Basic
import WordSwitch.Trie.Numbering

/-!
# Cutting a trie again

Inserted words are cut by their length alone.  Recutting gives all chunks that
leave a node one width, at which every one of them may be compared.  What is
cut off a chunk is pushed down in front of the chunks below it.  The new nodes
are numbered downward.
-/

namespace WordSwitch

/-- How chunks are cut. -/
structure Cutting where
  ignoreCase : Bool
  maxWidth : Nat
deriving DecidableEq, Repr

namespace Branches

variable {ι : Type}

/-- The width at which all edges may be cut. -/
def commonWidth (cutting : Cutting) (branches : Branches ι) : Nat :=
  ((branches.chunks.map
    (Chunk.safeWidth cutting.ignoreCase cutting.maxWidth)).min?).getD 1

/-- The edges whose first bytes are the given ones. -/
def startingWith (width : Nat) (start : Bytes) : Branches ι → Branches ι
  | nil => nil
  | cons chunk tag terminal below rest =>
    if chunk.take width = start then
      cons chunk tag terminal below (rest.startingWith width start)
    else
      rest.startingWith width start

/-- Put bytes in front of every chunk. -/
def prepend (bytes : Bytes) : Branches ι → Branches ι
  | nil => nil
  | cons chunk tag terminal below rest =>
    cons (bytes ++ chunk) tag terminal below (rest.prepend bytes)

/-- What is left of an edge after its first bytes are consumed: the edges
below it if the chunk is used up, and otherwise the rest of the chunk, in
front of the edges below if there are any. -/
def advanceEdge
    (remainder : Bytes)
    (tag : ι)
    (terminal : Option Enumerator)
    (below : Branches ι) :
    Branches ι :=
  if remainder.isEmpty then below
  else if below.isNil then cons remainder tag terminal nil nil
  else below.prepend remainder

/-- What is left of some edges after their first `width` bytes are
consumed. -/
def advance (width : Nat) : Branches ι → Branches ι
  | nil => nil
  | cons chunk tag terminal below rest =>
    (advanceEdge (chunk.drop width) tag terminal below).append
      (rest.advance width)

/-- The terminal that is reached when `width` bytes of some edges are
consumed: that of the last edge which is used up and has one. -/
def landing (width : Nat) : Branches ι → Option Enumerator
  | nil => none
  | cons chunk _ terminal _ rest =>
    (rest.landing width).or (if chunk.length ≤ width then terminal else none)

/-- A bound on the number of levels after recutting: the largest number of
edges and bytes on a path. -/
def levelBound : Branches ι → Nat
  | nil => 0
  | cons chunk _ _ below rest =>
    max (chunk.length + below.levelBound + 1) rest.levelBound

/-- Recut branches into at most `bound` levels. -/
def recutWithin
    (cutting : Cutting) :
    (bound : Nat) → Branches ι → Branches Unit
  | 0, _ => nil
  | bound + 1, branches =>
    let width := branches.commonWidth cutting
    let starts := ascending (branches.chunks.map (·.take width))
    starts.foldr
      (fun start rest =>
        let group := branches.startingWith width start
        cons start () (group.landing width)
          (recutWithin cutting bound (group.advance width))
          rest)
      nil

/-- Recut branches. -/
def recut (cutting : Cutting) (branches : Branches ι) : Branches Unit :=
  recutWithin cutting branches.levelBound branches

end Branches

namespace Trie

/-- Recut a trie. -/
def recut (trie : Trie) (ignoreCase : Bool) (maxWidth : Nat) : Trie :=
  let cutting : Cutting := ⟨ignoreCase, max maxWidth 1⟩
  ⟨cutting.maxWidth, trie.terminal,
    (trie.branches.recut cutting).numberDownward 1⟩

end Trie

end WordSwitch
