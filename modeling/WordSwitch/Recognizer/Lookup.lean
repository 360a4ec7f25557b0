import WordSwitch.Chunk.Comparison
import WordSwitch.Recognizer.Basic

/-!
# Looking up words

The answer of a recognizer to an input.  The trie for the length of the input
is followed from the root: each node reads as many bytes as its edges have in
common, and the first edge that accepts them, under the comparison of that node,
leads on.
-/

namespace WordSwitch

namespace Branches

variable {ι : Type}

/-- What a node reads of an input, as many bytes as its edges have in common,
and what is left. -/
def read? (branches : Branches ι) (input : Bytes) : Option (Bytes × Bytes) :=
  match Chunk.commonWidth? branches.chunks with
  | some width =>
    if width ≤ input.length then some (input.take width, input.drop width)
    else none
  | none => none

/-- Follow an input along the first edge that accepts what was read of it. -/
def follow
    (ignoreCase : Bool) :
    Branches ι → Chunk.Comparison → (read remaining : Bytes) →
      Option Enumerator
  | nil, _, _, _ => none
  | cons chunk _ terminal below rest, comparison, read, remaining =>
    if comparison.accepts read chunk then
      if below.isNil then
        if remaining.isEmpty then terminal else none
      else
        (below.read? remaining).bind fun next =>
          below.follow ignoreCase (.ofKeys ignoreCase below.chunks)
            next.1 next.2
    else
      rest.follow ignoreCase comparison read remaining

end Branches

namespace Trie

/-- What an input leads to, if it leads to a leaf. -/
def recognize?
    (trie : Trie)
    (ignoreCase : Bool)
    (input : Bytes) :
    Option Enumerator :=
  if trie.branches.isNil then
    if input.isEmpty then trie.terminal else none
  else
    (trie.branches.read? input).bind fun next =>
      trie.branches.follow ignoreCase
        (.ofKeys ignoreCase trie.branches.chunks) next.1 next.2

end Trie

namespace Recognizer

/-- What an input stands for if it is a word. -/
def lookupWord? (recognizer : Recognizer) (input : Bytes) : Option Enumerator :=
  match findIn? input.length recognizer.tries with
  | some trie => trie.recognize? recognizer.ignoreCase input
  | none => none

/-- What an input stands for. -/
def lookup (recognizer : Recognizer) (input : Bytes) : Enumerator :=
  (recognizer.lookupWord? input).getD recognizer.fallback

end Recognizer

end WordSwitch
