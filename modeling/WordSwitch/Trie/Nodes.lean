import WordSwitch.Chunk.Comparison
import WordSwitch.Trie.Basic

/-!
# Nodes

A trie seen as the list of its nodes in the order of their numbers, each with
the numbers of the nodes its edges lead to.
-/

namespace WordSwitch

/-- A node with the edges that leave it. -/
structure Node where
  number : Nat
  terminal : Option Enumerator
  edges : List (Bytes × Nat)
deriving DecidableEq, Repr

namespace Node

/-- A leaf has no edges. -/
def isLeaf (node : Node) : Bool :=
  node.edges.isEmpty

/-- The chunks on the edges. -/
def chunks (node : Node) : List Bytes :=
  node.edges.map (·.1)

/-- The width of the chunks on the edges, if they have one in common. -/
def width? (node : Node) : Option Nat :=
  Chunk.commonWidth? node.chunks

/-- How the node compares what it reads with its edges. -/
def comparison (node : Node) (ignoreCase : Bool) : Chunk.Comparison :=
  .ofKeys ignoreCase node.chunks

end Node

namespace Branches

/-- The nodes that branches hold, each before those below it. -/
def nodes : Branches Nat → List Node
  | nil => []
  | cons _ tag terminal below rest =>
    ⟨tag, terminal, below.edges⟩ :: below.nodes ++ rest.nodes

end Branches

namespace Trie

/-- The root. -/
def root (trie : Trie) : Node :=
  ⟨0, trie.terminal, trie.branches.edges⟩

/-- All nodes in the order of their numbers. -/
def nodes (trie : Trie) : List Node :=
  (trie.root :: trie.branches.nodes).mergeSort
    fun first second => first.number ≤ second.number

end Trie

end WordSwitch
