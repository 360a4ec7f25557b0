import WordSwitch.Bytes
import WordSwitch.Enumerator

/-!
# Branches

The edges that leave a node, each with a chunk of bytes, and everything below
them.  A node carries a tag, usually its number, and a terminal if a word ends
there.  This module holds the ways to look at branches: the words they spell,
the word they find, and their size.
-/

namespace WordSwitch

/-- The edges that leave a node, in order.  Each leads to a node with a tag,
perhaps a terminal, and branches of its own. -/
inductive Branches (ι : Type) where
  | nil
  | cons
      (chunk : Bytes)
      (tag : ι)
      (terminal : Option Enumerator)
      (below rest : Branches ι)
deriving DecidableEq, Repr

/-- A word with what it stands for. -/
abbrev Spelling := Bytes × Enumerator

namespace Branches

variable {ι : Type}

/-- Whether no edge is there. -/
def isNil : Branches ι → Bool
  | nil => true
  | cons .. => false

/-- The number of nodes. -/
def size : Branches ι → Nat
  | nil => 0
  | cons _ _ _ below rest => below.size + rest.size + 1

@[simp] theorem size_nil : (nil : Branches ι).size = 0 := rfl

@[simp] theorem size_cons
    (chunk : Bytes)
    (tag : ι)
    (terminal : Option Enumerator)
    (below rest : Branches ι) :
    (cons chunk tag terminal below rest).size = below.size + rest.size + 1 :=
  rfl

/-- The chunks on the edges. -/
def chunks : Branches ι → List Bytes
  | nil => []
  | cons chunk _ _ _ rest => chunk :: rest.chunks

/-- The chunks on the edges, with the tags of the nodes they lead to. -/
def edges : Branches ι → List (Bytes × ι)
  | nil => []
  | cons chunk tag _ _ rest => (chunk, tag) :: rest.edges

/-- The edges of one list after those of another. -/
def append : Branches ι → Branches ι → Branches ι
  | nil, others => others
  | cons chunk tag terminal below rest, others =>
    cons chunk tag terminal below (rest.append others)

@[simp] theorem size_append (branches others : Branches ι) :
    (branches.append others).size = branches.size + others.size := by
  induction branches with
  | nil => simp [append]
  | cons chunk tag terminal below rest _ rest_size =>
    simp only [append, size_cons, rest_size]
    omega

@[simp] theorem chunks_append (branches others : Branches ι) :
    (branches.append others).chunks = branches.chunks ++ others.chunks := by
  induction branches with
  | nil => rfl
  | cons chunk tag terminal below rest _ rest_chunks =>
    simp only [append, chunks, rest_chunks, List.cons_append]

/-- Put bytes in front of a spelling. -/
def extend (chunk : Bytes) (spelling : Spelling) : Spelling :=
  (chunk ++ spelling.1, spelling.2)

/-- What is spelled by a chunk alone: the terminal it leads to. -/
def ownSpelling (chunk : Bytes) : Option Enumerator → List Spelling
  | none => []
  | some enumerator => [(chunk, enumerator)]

/-- The words spelled along the edges, a node's own word before those below
it. -/
def words : Branches ι → List Spelling
  | nil => []
  | cons chunk _ terminal below rest =>
    ownSpelling chunk terminal ++ below.words.map (extend chunk) ++ rest.words

@[simp] theorem words_nil : (nil : Branches ι).words = [] := rfl

@[simp] theorem words_cons
    (chunk : Bytes)
    (tag : ι)
    (terminal : Option Enumerator)
    (below rest : Branches ι) :
    (cons chunk tag terminal below rest).words =
      ownSpelling chunk terminal ++ below.words.map (extend chunk) ++
        rest.words :=
  rfl

@[simp] theorem words_append (branches others : Branches ι) :
    (branches.append others).words = branches.words ++ others.words := by
  induction branches with
  | nil => rfl
  | cons chunk tag terminal below rest _ rest_words =>
    simp only [append, words_cons, rest_words, List.append_assoc]

/-- The terminal that a non-empty word leads to.  Edges may overlap while
their chunks have different widths, so every edge that begins the word is
tried in turn. -/
def get? : Branches ι → Bytes → Option Enumerator
  | nil, _ => none
  | cons chunk _ terminal below rest, word =>
    if chunk.isPrefixOf word then
      (if chunk.length = word.length then terminal
        else below.get? (word.drop chunk.length)).or (rest.get? word)
    else rest.get? word

/-- The number of edges on the longest path. -/
def depth : Branches ι → Nat
  | nil => 0
  | cons _ _ _ below rest => max (below.depth + 1) rest.depth

@[simp] theorem depth_nil : (nil : Branches ι).depth = 0 := rfl

@[simp] theorem depth_cons
    (chunk : Bytes)
    (tag : ι)
    (terminal : Option Enumerator)
    (below rest : Branches ι) :
    (cons chunk tag terminal below rest).depth =
      max (below.depth + 1) rest.depth :=
  rfl

end Branches

end WordSwitch
