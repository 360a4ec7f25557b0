import WordSwitch.Proofs.Recognizer.Tries
import WordSwitch.Trie.Nodes

/-!
# The shape of the tries of a recognizer

There is one trie for each length of word.  Its words end at its leaves, every
path from the root to a leaf spells as many bytes as the length says, and the
chunks that leave a node can be told apart by one switch.
-/

namespace WordSwitch

namespace Branches

variable {ι : Type}

/-- The chunks along each path to a leaf. -/
def leafPaths : Branches ι → List (List Bytes)
  | nil => []
  | cons chunk _ _ below rest =>
    (if below.isNil then [[chunk]] else below.leafPaths.map (chunk :: ·)) ++
      rest.leafPaths

/-- If words end at every leaf, the path to a leaf spells a word. -/
theorem WordsAtLeaves.exists_of_mem_leafPaths
    {branches : Branches ι}
    (leaves : branches.WordsAtLeaves)
    {path : List Bytes}
    (listed : path ∈ branches.leafPaths) :
    ∃ member, (path.flatten, member) ∈ branches.words := by
  induction branches generalizing path with
  | nil => cases listed
  | cons chunk tag terminal below rest below_word rest_word =>
    obtain ⟨leaf, belowLeaves, restLeaves⟩ := leaves
    rcases List.mem_append.mp listed with here | later
    · split at here
      · next ends =>
        rw [ends] at leaf
        obtain ⟨member, terminal_eq⟩ := Option.isSome_iff_exists.mp leaf.symm
        rw [List.mem_singleton] at here
        exact ⟨member, mem_words_cons.mpr
          (Or.inl ⟨by simp [here], terminal_eq⟩)⟩
      · obtain ⟨path, inBelow, rfl⟩ := List.mem_map.mp here
        obtain ⟨member, inside⟩ := below_word belowLeaves inBelow
        exact ⟨member, mem_words_cons.mpr
          (Or.inr (Or.inl ⟨path.flatten, rfl, inside⟩))⟩
    · obtain ⟨member, present⟩ := rest_word restLeaves later
      exact ⟨member, mem_words_cons.mpr (Or.inr (Or.inr present))⟩

end Branches

namespace Node

/-- A node whose edges one switch tells apart.  A word ends there exactly if it
is a leaf. -/
structure Switchable
    (ignoreCase : Bool)
    (limit : Nat)
    (node : Node) :
    Prop where
  leaf : node.isLeaf = true ↔ node.terminal.isSome = true
  aligned : Chunk.Aligned ignoreCase limit node.chunks
  /-- Both cases are spelled out for single bytes alone. -/
  spelledOut : node.comparison ignoreCase = .spelledOut →
    node.width? = some 1
  /-- What is read is accepted for one edge at most. -/
  oneEdge : ∀ read, ∀ first ∈ node.chunks, ∀ second ∈ node.chunks,
    (node.comparison ignoreCase).accepts read first = true →
    (node.comparison ignoreCase).accepts read second = true →
      first = second

theorem switchable_of_aligned
    {ignoreCase : Bool}
    {limit : Nat}
    {node : Node}
    (leaf : node.isLeaf = node.terminal.isSome)
    (aligned : Chunk.Aligned ignoreCase limit node.chunks) :
    node.Switchable ignoreCase limit := by
  refine ⟨by rw [leaf], aligned, ?_, ?_⟩
  · intro spelled
    refine Chunk.commonWidth?_eq_some ?_ fun chunk =>
      aligned.length_eq_one_of_spelledOut spelled
    intro none_left
    rw [comparison, none_left] at spelled
    cases ignoreCase <;> cases spelled
  · intro read first first_mem second second_mem first_accepts second_accepts
    have first_eq := (aligned.accepts_iff first_mem).mp first_accepts
    have second_eq := (aligned.accepts_iff second_mem).mp second_accepts
    exact first_eq.symm.trans second_eq

end Node

namespace Trie

/-- The chunks along each path from the root to a leaf. -/
def leafPaths (trie : Trie) : List (List Bytes) :=
  if trie.branches.isNil then [[]] else trie.branches.leafPaths

section

variable
  {ignoreCase : Bool}
  {limit length : Nat}
  {trie : Trie}

/-- The chunks along a path to a leaf add up to the length of the words. -/
theorem OfOneLength.sum_of_mem_leafPaths
    (one : trie.OfOneLength length)
    {path : List Bytes}
    (listed : path ∈ trie.leafPaths) :
    (path.map List.length).sum = length := by
  unfold leafPaths at listed
  split at listed
  · next ends =>
    have leaf := one.leaf
    rw [ends] at leaf
    rw [List.mem_singleton.mp listed, one.atRoot leaf.symm]
    rfl
  · obtain ⟨member, present⟩ :=
      one.branches.leaves.exists_of_mem_leafPaths listed
    rw [← List.length_flatten]
    exact one.branches.length_eq _ member present

/-- Every node of a well cut trie can be made a switch. -/
theorem WellCut.switchable
    (cut : trie.WellCut ignoreCase limit length)
    {node : Node}
    (listed : node ∈ trie.nodes) :
    node.Switchable ignoreCase limit := by
  rcases mem_nodes.mp listed with rfl | further
  · refine Node.switchable_of_aligned ?_ ?_
    · exact (Branches.isEmpty_edges trie.branches).trans cut.one.leaf
    · rw [Node.chunks, root, Branches.map_fst_edges]
      exact cut.aligned
  · exact Node.switchable_of_aligned
      (cut.one.branches.leaves.isLeaf_eq further)
      (cut.nodes.of_mem_nodes further)

end

end Trie

namespace Lexicon

/-- There is one trie for each length of word.  Every path to a leaf of it
spells as many bytes, and every node of it can be made a switch. -/
theorem tries_after
    (history : List Declaration)
    {config : RecognizerConfig}
    {recognizer : Recognizer}
    (built : (after history).recognizer config = .ok recognizer) :
    recognizer.lengths = (after history).lengths ∧
    ∀ length trie, (length, trie) ∈ recognizer.tries →
      (∀ path ∈ trie.leafPaths, (path.map List.length).sum = length) ∧
      ∀ node ∈ trie.nodes,
        node.Switchable config.ignoreCase config.widthLimit := by
  have builds := (assignedOnce_after history).builds built
  refine ⟨builds.lengths_eq, ?_⟩
  intro length trie listed
  have cut := builds.wellCut length trie listed
  exact ⟨fun _ => cut.one.sum_of_mem_leafPaths, fun _ => cut.switchable⟩

/-- Words of two lengths, some with a hyphen. -/
def ofTwoLengths : List Declaration :=
  [.entry [65, 45, 98] "First" (some 3), .entry [97, 98, 67] "Second" none,
    .entry [97, 45] "Third" none]

theorem tries_after_ofTwoLengths :
    ∃ recognizer,
      (after ofTwoLengths).recognizer ⟨true, true, 8⟩ = .ok recognizer ∧
      recognizer.lengths = [2, 3] ∧
      ∀ length trie, (length, trie) ∈ recognizer.tries →
        ∀ node ∈ trie.nodes, node.Switchable true 8 := by
  let config : RecognizerConfig := ⟨true, true, 8⟩
  have built : (after ofTwoLengths).recognizer config = .ok
      ⟨true, 8, (after ofTwoLengths).lengthTries config,
        (after ofTwoLengths).fallback⟩ := rfl
  obtain ⟨lengths_eq, shape⟩ := tries_after ofTwoLengths built
  refine ⟨_, built, ?_, ?_⟩
  · rw [lengths_eq]
    decide
  · intro length trie listed
    exact (shape length trie listed).2

end Lexicon
end WordSwitch
