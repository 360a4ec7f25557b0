import WordSwitch.Proofs.Arena.Kept
import WordSwitch.Proofs.Trie.Leaves

/-!
# Recutting words of any lengths

An arena that insertions lead to can be recut without restricting it to a length
before.  Then some words may be lost, but none is made up, none is listed twice,
and those that end at leaves are kept.
-/

namespace WordSwitch

namespace Branches

/-- An edge leads to a node above other branches, and the leaves from there on
are among those of the edges. -/
theorem FoundIn.exists_below
    {nodes : List Node}
    {branches : Branches Nat}
    (found : branches.FoundIn nodes)
    {chunk : Bytes}
    {child : Nat}
    (listed : (chunk, child) ∈ branches.edges) :
    ∃ terminal below,
      nodes[child]? = some ⟨child, terminal, below.edges⟩ ∧
      below.FoundIn nodes ∧
      ∀ spelling ∈ leafWordsFrom terminal below,
        extend chunk spelling ∈ branches.leafWords := by
  induction branches with
  | nil => cases listed
  | cons key tag terminal below rest _ rest_below =>
    rw [leafWords_cons]
    rcases List.mem_cons.mp listed with here | later
    · obtain ⟨rfl, rfl⟩ := Prod.mk.inj here
      exact ⟨terminal, below, found.here, found.below, fun spelling inEdge =>
        List.mem_append_left _ (List.mem_map_of_mem inEdge)⟩
    · obtain ⟨lastTerminal, further, at_child, furtherFound, leaves⟩ :=
        rest_below found.rest later
      exact ⟨lastTerminal, further, at_child, furtherFound,
        fun spelling inEdge => List.mem_append_right _ (leaves spelling inEdge)⟩

theorem leafWordsFrom_of_mem_edges
    {branches : Branches Nat}
    {edge : Bytes × Nat}
    (listed : edge ∈ branches.edges)
    (terminal : Option Enumerator) :
    leafWordsFrom terminal branches = branches.leafWords := by
  cases branches with
  | nil => cases listed
  | cons _ _ _ _ _ => rfl

end Branches

namespace Arena

/-- What is spelled on the way to a leaf is a word that ends at a leaf. -/
theorem Leads.mem_leafWordsFrom
    {arena : Arena}
    {place last : Nat}
    {bytes : Bytes}
    (leads : arena.Leads place bytes last)
    {branches : Branches Nat}
    (found : branches.FoundIn arena.nodes)
    {number : Nat}
    {terminal : Option Enumerator}
    (at_place : arena.nodes[place]? = some ⟨number, terminal, branches.edges⟩)
    {node : Node}
    (at_last : arena.nodes[last]? = some node)
    (leaf : node.isLeaf = true)
    {member : Enumerator}
    (ends : node.terminal = some member) :
    (bytes, member) ∈ Branches.leafWordsFrom terminal branches := by
  induction leads generalizing branches number terminal with
  | here place =>
    obtain rfl := Option.some.inj (at_last.symm.trans at_place)
    rw [Node.isLeaf, Branches.isEmpty_edges] at leaf
    rw [Branches.leafWordsFrom, if_pos leaf]
    exact Branches.mem_ownSpelling.mpr ⟨rfl, ends⟩
  | along links _ hypothesis =>
    obtain ⟨parent, at_parent, listed⟩ := links
    obtain rfl := Option.some.inj (at_parent.symm.trans at_place)
    obtain ⟨inner, below, at_child, belowFound, leaves⟩ :=
      found.exists_below listed
    rw [Branches.leafWordsFrom_of_mem_edges listed]
    exact leaves _ (hypothesis belowFound at_child at_last)

/-- Recutting the arena that insertions lead to makes up no words, lists none
twice, and keeps those that end at leaves.  Afterwards the chunks that leave a
node have one width. -/
theorem recut_of_insertions
    (maxWidth : Nat)
    (insertions : List Spelling)
    (ignoreCase : Bool)
    (width : Nat) :
    let trie := Trie.ofInsertions maxWidth insertions
    let arena := ofTrie trie
    let again := trie.recut ignoreCase width
    EndsWith
      (reached maxWidth
        (insertions.map fun spelling => .insert spelling.1 spelling.2))
      arena ∧
    EndsWith arena.words trie.words ∧
    EndsWith (arena.recut ignoreCase width) (ofTrie again) ∧
    EndsWith (ofTrie again).words again.words ∧
    (∀ spelling ∈ again.words, spelling ∈ trie.words) ∧
    (again.words.map (·.1)).Nodup ∧
    (∀ word place node member,
      arena.Leads 0 word place →
      arena.nodes[place]? = some node →
      node.isLeaf = true →
      node.terminal = some member →
        (word, member) ∈ again.words) ∧
    ∀ node ∈ again.nodes,
      ∃ chunkWidth, ∀ chunk ∈ node.chunks, chunk.length = chunkWidth := by
  intro trie arena again
  have formed := Trie.wellFormed_ofInsertions maxWidth insertions
  have canonical := Trie.canonical_ofInsertions maxWidth insertions
  obtain ⟨ends, represents⟩ := represents_ofInsertions maxWidth insertions
  obtain ⟨cut, cut_ends, cutRepresents⟩ :=
    represents.recut formed.nonempty ignoreCase width
  obtain rfl : cut = ofTrie again := cutRepresents.eq_ofTrie
  refine ⟨ends, represents.words, cut_ends, cutRepresents.words, ?_, ?_, ?_, ?_⟩
  · exact fun _ => formed.mem_words_of_mem_words_recut
  · refine List.pairwise_map.mpr
      ((formed.pairwise_words_recut ignoreCase width).imp ?_)
    intro first second before same
    rw [Spelling.Before, same] at before
    exact List.lt_irrefl _ before
  · intro word place node member leads at_place leaf terminal_eq
    exact formed.mem_words_recut_of_mem_leafWords
      (fun _ _ _ => canonical.words_functional)
      (leads.mem_leafWordsFrom represents.foundIn represents.root at_place leaf
        terminal_eq)
  · intro node listed
    obtain ⟨chunkWidth, widths⟩ := formed.settled_node_of_recut listed
    exact ⟨chunkWidth, fun chunk inNode => (widths chunk inNode).1⟩

/-- A word that ends on the way is lost if its chunk is cut in two. -/
example :
    let trie := Trie.ofInsertions 2
      [([97, 45], ⟨"Inner", 1⟩), ([97, 45, 98, 99], ⟨"Longer", 2⟩)]
    (trie.recut true 2).words = [([97, 45, 98, 99], ⟨"Longer", 2⟩)] := by
  decide

end Arena

end WordSwitch
