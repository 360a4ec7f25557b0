import WordSwitch.Chunk.Width
import WordSwitch.Trie.Branches

/-!
# Tries

A trie holds words as paths of chunks.  Its nodes are numbered in the order in
which they were made, from zero for the root.  A word is inserted along the
chunks of its cut, so every node on the way that is missing gets the next
number.
-/

namespace WordSwitch

namespace Branches

/-- A path of new nodes, numbered from `next`, in front of other edges. -/
def chain
    (next : Nat)
    (enumerator : Enumerator) :
    (chunk : Bytes) → (path : List Bytes) → Branches Nat → Branches Nat
  | chunk, [], others => cons chunk next (some enumerator) nil others
  | chunk, second :: path, others =>
    cons chunk next none (chain (next + 1) enumerator second path nil) others

/-- Lead a path to an enumerator.  Edges are kept in ascending order, and new
nodes are numbered from `next`. -/
def insert
    (next : Nat)
    (enumerator : Enumerator) :
    Branches Nat → (chunk : Bytes) → (path : List Bytes) → Branches Nat
  | nil, chunk, path => chain next enumerator chunk path nil
  | cons key tag terminal below rest, chunk, path =>
    if chunk = key then
      match path with
      | [] => cons key tag (some enumerator) below rest
      | second :: path =>
        cons key tag terminal (insert next enumerator below second path) rest
    else if chunk < key then
      chain next enumerator chunk path (cons key tag terminal below rest)
    else
      cons key tag terminal below (insert next enumerator rest chunk path)

/-- The terminal at the end of a path. -/
def terminalAt? {ι : Type} :
    Branches ι → (chunk : Bytes) → (path : List Bytes) → Option Enumerator
  | nil, _, _ => none
  | cons key _ terminal below rest, chunk, path =>
    if chunk = key then
      match path with
      | [] => terminal
      | second :: path => below.terminalAt? second path
    else
      rest.terminalAt? chunk path

end Branches

/-- A root with numbered branches. -/
structure Trie where
  /-- The widest chunk that insertion cuts. -/
  maxWidth : Nat
  /-- What the empty word stands for. -/
  terminal : Option Enumerator
  branches : Branches Nat
deriving DecidableEq, Repr

namespace Trie

/-- The trie without words. -/
def empty (maxWidth : Nat) : Trie :=
  ⟨max maxWidth 1, none, .nil⟩

/-- The number of nodes, the root included. -/
def size (trie : Trie) : Nat :=
  trie.branches.size + 1

/-- Whether there is neither a word nor an edge. -/
def isEmpty (trie : Trie) : Bool :=
  trie.branches.isNil && trie.terminal.isNone

/-- Let a word stand for an enumerator. -/
def insert (trie : Trie) (word : Bytes) (enumerator : Enumerator) : Trie :=
  match Chunk.cut trie.maxWidth word with
  | [] => { trie with terminal := some enumerator }
  | chunk :: path =>
    { trie with
      branches := trie.branches.insert trie.size enumerator chunk path }

/-- What inserting a word would replace: the terminal where its cut leads. -/
def replaced? (trie : Trie) (word : Bytes) : Option Enumerator :=
  match Chunk.cut trie.maxWidth word with
  | [] => trie.terminal
  | chunk :: path => trie.branches.terminalAt? chunk path

/-- What a word stands for. -/
def get? (trie : Trie) (word : Bytes) : Option Enumerator :=
  if word.isEmpty then trie.terminal else trie.branches.get? word

/-- All words, a node's own word before those below it. -/
def words (trie : Trie) : List Spelling :=
  Branches.ownSpelling [] trie.terminal ++ trie.branches.words

/-- The number of edges on the longest path. -/
def depth (trie : Trie) : Nat :=
  trie.branches.depth

end Trie

end WordSwitch
