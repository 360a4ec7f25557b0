import WordSwitch.Chunk.Comparison
import WordSwitch.Recognizer.Basic

/-!
# Generated functions

The definitions that are generated for a recognizer: one function for each
length of word, made of nested switches, and an entry function that chooses
among them by the length of the input.  The body of a function is a sequence
of statements and of the constants that label them.
-/

namespace WordSwitch
namespace Program

/-- What a switch reads: some bytes of the input, perhaps with the case bit
set. -/
structure Subject where
  offset : Nat
  width : Nat
  isFolded : Bool
deriving DecidableEq, Repr

/-- A sequence of statements and of constants that label what follows them. -/
inductive Code where
  | nil
  /-- A statement that marks the input as unused. -/
  | unused (next : Code)
  /-- A constant that labels what follows. -/
  | constant (chunk : Bytes) (next : Code)
  /-- A statement that returns the enumerator with some label. -/
  | answer (label : String) (next : Code)
  /-- A statement that leaves the innermost switch. -/
  | leave (next : Code)
  /-- A switch with its body. -/
  | switch (subject : Subject) (body next : Code)
deriving DecidableEq, Repr

namespace Code

/-- Label code with constants. -/
def labelled (chunks : List Bytes) (code : Code) : Code :=
  chunks.foldr constant code

/-- Return an enumerator if there is one. -/
def answerIfSome (terminal : Option Enumerator) (next : Code) : Code :=
  match terminal with
  | some member => answer member.label next
  | none => next

end Code

/-- The definitions: the function for each length, and the label that stands
for all other inputs. -/
structure Definitions where
  functions : List (Nat × Code)
  fallback : String
deriving DecidableEq, Repr

/-- The constants that label the code for an edge. -/
def constants : Chunk.Comparison → (key : Bytes) → List Bytes
  | .exact, key => [key]
  | .folded, key => [Chunk.fold key]
  | .spelledOut, key => Chunk.caseVariants key

/-- The width that a node with some edges reads. -/
def readWidth (chunks : List Bytes) : Nat :=
  (chunks.head?.map List.length).getD 1

/-- What a node with some edges reads. -/
def subject
    (ignoreCase : Bool)
    (offset : Nat)
    (chunks : List Bytes) :
    Subject :=
  ⟨offset, readWidth chunks,
    Chunk.Comparison.ofKeys ignoreCase chunks == .folded⟩

end Program

namespace Branches

open Program

variable {ι : Type}

/-- The body of the switch for some edges of a node that reads `width` bytes
at an offset.  An edge to a leaf returns; any other switches again, and leaves
the switch if nothing is returned there. -/
def code
    (ignoreCase : Bool)
    (comparison : Chunk.Comparison) :
    (offset width : Nat) → Branches ι → Code
  | _, _, nil => .nil
  | offset, width, cons chunk _ terminal below rest =>
    let following := rest.code ignoreCase comparison offset width
    Code.labelled (constants comparison chunk)
      (if below.isNil then Code.answerIfSome terminal following
      else
        .switch (subject ignoreCase (offset + width) below.chunks)
          (below.code ignoreCase (.ofKeys ignoreCase below.chunks)
            (offset + width) (readWidth below.chunks))
          (.leave following))

end Branches

namespace Trie

/-- The body of the function for the words of a trie.  It returns the
fallback where it finds no word. -/
def code (trie : Trie) (ignoreCase : Bool) (fallback : String) : Program.Code :=
  let chunks := trie.branches.chunks
  if trie.branches.isNil then
    .unused (.answer ((trie.terminal.map Enumerator.label).getD fallback) .nil)
  else
    .switch (Program.subject ignoreCase 0 chunks)
      (trie.branches.code ignoreCase (.ofKeys ignoreCase chunks) 0
        (Program.readWidth chunks))
      (.answer fallback .nil)

end Trie

namespace Recognizer

/-- The definitions for a recognizer. -/
def definitions (recognizer : Recognizer) : Program.Definitions :=
  let fallback := recognizer.fallback.label
  ⟨recognizer.tries.map fun (length, trie) =>
    (length, trie.code recognizer.ignoreCase fallback), fallback⟩

end Recognizer

end WordSwitch
