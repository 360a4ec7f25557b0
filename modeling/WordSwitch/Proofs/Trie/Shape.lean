import WordSwitch.Trie.Nodes
import WordSwitch.Trie.Numbering

/-!
# The shape of branches

What branches spell does not depend on the tags of their nodes.  The shape of
branches is what is left without tags; numbering keeps it.  Properties that
every chunk, or every node, is to have are stated by recursion over branches.
-/

namespace WordSwitch
namespace Branches

variable {ι : Type}

/-- Forget the tags. -/
def shape : Branches ι → Branches Unit
  | nil => nil
  | cons chunk _ terminal below rest =>
    cons chunk () terminal below.shape rest.shape

/-- Every chunk has a property. -/
def EveryChunk (property : Bytes → Prop) : Branches ι → Prop
  | nil => True
  | cons chunk _ _ below rest =>
    property chunk ∧ below.EveryChunk property ∧ rest.EveryChunk property

/-- The chunks that leave any node further in have a property together. -/
def EveryNode (property : List Bytes → Prop) : Branches ι → Prop
  | nil => True
  | cons _ _ _ below rest =>
    property below.chunks ∧ below.EveryNode property ∧
      rest.EveryNode property

/-- Words end at the leaves, and at every one of them. -/
def WordsAtLeaves : Branches ι → Prop
  | nil => True
  | cons _ _ terminal below rest =>
    below.isNil = terminal.isSome ∧ below.WordsAtLeaves ∧ rest.WordsAtLeaves

/-! ## Edges -/

@[simp] theorem map_fst_edges (branches : Branches ι) :
    branches.edges.map (·.1) = branches.chunks := by
  induction branches with
  | nil => rfl
  | cons chunk tag terminal below rest _ rest_chunks =>
    rw [edges, List.map_cons, rest_chunks, chunks]

@[simp] theorem isEmpty_edges (branches : Branches ι) :
    branches.edges.isEmpty = branches.isNil := by
  cases branches <;> rfl

theorem edges_append (branches others : Branches ι) :
    (branches.append others).edges = branches.edges ++ others.edges := by
  induction branches with
  | nil => rfl
  | cons chunk tag terminal below rest _ rest_edges =>
    rw [append, edges, edges, rest_edges, List.cons_append]

/-! ## Shapes -/

@[simp] theorem isNil_eq_true_iff {branches : Branches ι} :
    branches.isNil = true ↔ branches = nil := by
  cases branches <;> simp [isNil]

@[simp] theorem shape_unit (branches : Branches Unit) :
    branches.shape = branches := by
  induction branches with
  | nil => rfl
  | cons chunk tag terminal below rest below_shape rest_shape =>
    simp [shape, below_shape, rest_shape]

@[simp] theorem shape_numberDownward
    (branches : Branches ι)
    (next : Nat) :
    (branches.numberDownward next).shape = branches.shape := by
  induction branches generalizing next with
  | nil => rfl
  | cons chunk tag terminal below rest below_shape rest_shape =>
    simp [numberDownward, shape, below_shape, rest_shape]

@[simp] theorem shape_numberUpward
    (branches : Branches ι)
    (next : Nat) :
    (branches.numberUpward next).shape = branches.shape := by
  induction branches generalizing next with
  | nil => rfl
  | cons chunk tag terminal below rest below_shape rest_shape =>
    simp [numberUpward, shape, below_shape, rest_shape]

@[simp] theorem isNil_shape (branches : Branches ι) :
    branches.shape.isNil = branches.isNil := by
  cases branches <;> rfl

@[simp] theorem size_shape (branches : Branches ι) :
    branches.shape.size = branches.size := by
  induction branches with
  | nil => rfl
  | cons chunk tag terminal below rest below_size rest_size =>
    simp [shape, below_size, rest_size]

@[simp] theorem chunks_shape (branches : Branches ι) :
    branches.shape.chunks = branches.chunks := by
  induction branches with
  | nil => rfl
  | cons chunk tag terminal below rest _ rest_chunks =>
    simp [shape, chunks, rest_chunks]

@[simp] theorem words_shape (branches : Branches ι) :
    branches.shape.words = branches.words := by
  induction branches with
  | nil => rfl
  | cons chunk tag terminal below rest below_words rest_words =>
    simp [shape, below_words, rest_words]

@[simp] theorem everyChunk_shape
    {property : Bytes → Prop}
    {branches : Branches ι} :
    branches.shape.EveryChunk property ↔ branches.EveryChunk property := by
  induction branches with
  | nil => rfl
  | cons chunk tag terminal below rest below_iff rest_iff =>
    simp [shape, EveryChunk, below_iff, rest_iff]

@[simp] theorem everyNode_shape
    {property : List Bytes → Prop}
    {branches : Branches ι} :
    branches.shape.EveryNode property ↔ branches.EveryNode property := by
  induction branches with
  | nil => rfl
  | cons chunk tag terminal below rest below_iff rest_iff =>
    simp [shape, EveryNode, below_iff, rest_iff]

@[simp] theorem wordsAtLeaves_shape {branches : Branches ι} :
    branches.shape.WordsAtLeaves ↔ branches.WordsAtLeaves := by
  induction branches with
  | nil => rfl
  | cons chunk tag terminal below rest below_iff rest_iff =>
    simp [shape, WordsAtLeaves, below_iff, rest_iff]

/-! ## Appended edges -/

theorem append_assoc (first second third : Branches ι) :
    (first.append second).append third =
      first.append (second.append third) := by
  induction first with
  | nil => rfl
  | cons chunk tag terminal below rest _ rest_assoc =>
    rw [append, append, append, rest_assoc]

@[simp] theorem append_nil (branches : Branches ι) :
    branches.append nil = branches := by
  induction branches with
  | nil => rfl
  | cons chunk tag terminal below rest _ rest_nil => rw [append, rest_nil]

@[simp] theorem everyChunk_append
    {property : Bytes → Prop}
    {branches others : Branches ι} :
    (branches.append others).EveryChunk property ↔
      branches.EveryChunk property ∧ others.EveryChunk property := by
  induction branches with
  | nil => simp [append, EveryChunk]
  | cons chunk tag terminal below rest _ rest_iff =>
    simp [append, EveryChunk, rest_iff, and_assoc]

@[simp] theorem wordsAtLeaves_append {branches others : Branches ι} :
    (branches.append others).WordsAtLeaves ↔
      branches.WordsAtLeaves ∧ others.WordsAtLeaves := by
  induction branches with
  | nil => simp [append, WordsAtLeaves]
  | cons chunk tag terminal below rest _ rest_iff =>
    simp [append, WordsAtLeaves, rest_iff, and_assoc]

/-! ## Words -/

theorem mem_ownSpelling
    {chunk word : Bytes}
    {terminal : Option Enumerator}
    {member : Enumerator} :
    (word, member) ∈ ownSpelling chunk terminal ↔
      word = chunk ∧ terminal = some member := by
  cases terminal with
  | none => simp [ownSpelling]
  | some enumerator => simp [ownSpelling, eq_comm]

theorem pairwise_ownSpelling
    (relation : Spelling → Spelling → Prop)
    (chunk : Bytes)
    (terminal : Option Enumerator) :
    (ownSpelling chunk terminal).Pairwise relation := by
  cases terminal with
  | none => exact List.Pairwise.nil
  | some enumerator => exact List.pairwise_singleton _ _

theorem map_extend_ownSpelling
    (before chunk : Bytes)
    (terminal : Option Enumerator) :
    (ownSpelling chunk terminal).map (extend before) =
      ownSpelling (before ++ chunk) terminal := by
  cases terminal <;> rfl

/-- A word of branches ends with the chunk of an edge, or goes on below it. -/
theorem mem_words_cons
    {chunk word : Bytes}
    {tag : ι}
    {terminal : Option Enumerator}
    {below rest : Branches ι}
    {member : Enumerator} :
    (word, member) ∈ (cons chunk tag terminal below rest).words ↔
      (word = chunk ∧ terminal = some member) ∨
      (∃ tail, word = chunk ++ tail ∧ (tail, member) ∈ below.words) ∨
      (word, member) ∈ rest.words := by
  rw [words_cons, List.mem_append, List.mem_append, or_assoc]
  refine or_congr mem_ownSpelling (or_congr ?_ Iff.rfl)
  constructor
  · intro present
    obtain ⟨⟨tail, found⟩, inside, equal⟩ := List.mem_map.mp present
    obtain ⟨rfl, rfl⟩ := Prod.mk.inj equal
    exact ⟨tail, rfl, inside⟩
  · rintro ⟨tail, rfl, inside⟩
    exact List.mem_map.mpr ⟨(tail, member), inside, rfl⟩

/-- An edge adds no word that begins with other bytes than its chunk. -/
theorem mem_words_cons_of_ne
    {chunk read : Bytes}
    (same_length : read.length = chunk.length)
    (different : read ≠ chunk)
    {remaining : Bytes}
    {tag : ι}
    {terminal : Option Enumerator}
    {below rest : Branches ι}
    {member : Enumerator} :
    (read ++ remaining, member) ∈ (cons chunk tag terminal below rest).words ↔
      (read ++ remaining, member) ∈ rest.words := by
  rw [mem_words_cons]
  constructor
  · rintro (⟨equal, _⟩ | ⟨tail, equal, _⟩ | inRest)
    · rw [← List.append_nil chunk] at equal
      exact absurd (List.append_inj_left equal same_length) different
    · exact absurd (List.append_inj_left equal same_length) different
    · exact inRest
  · exact fun inRest => Or.inr (Or.inr inRest)

/-- What is spelled from the end of an edge is spelled behind its chunk. -/
theorem extend_mem_words_cons
    {chunk : Bytes}
    {tag : ι}
    {terminal : Option Enumerator}
    {below rest : Branches ι}
    {spelling : Spelling}
    (listed : spelling ∈ ownSpelling [] terminal ++ below.words) :
    extend chunk spelling ∈ (cons chunk tag terminal below rest).words := by
  have own := map_extend_ownSpelling chunk [] terminal
  rw [List.append_nil] at own
  rw [words_cons, ← own, ← List.map_append]
  exact List.mem_append_left _ (List.mem_map_of_mem listed)

/-- Every word begins with the chunk of an edge. -/
theorem exists_chunk_prefix
    {branches : Branches ι}
    {word : Bytes}
    {member : Enumerator}
    (present : (word, member) ∈ branches.words) :
    ∃ chunk ∈ branches.chunks, chunk <+: word := by
  induction branches with
  | nil => simp at present
  | cons chunk tag terminal below rest _ rest_prefix =>
    rcases mem_words_cons.mp present with ⟨rfl, _⟩ | ⟨tail, rfl, _⟩ | later
    · exact ⟨word, List.mem_cons_self, List.prefix_refl word⟩
    · exact ⟨chunk, List.mem_cons_self, List.prefix_append chunk tail⟩
    · obtain ⟨other, listed, starts⟩ := rest_prefix later
      exact ⟨other, List.mem_cons_of_mem chunk listed, starts⟩

theorem EveryChunk.of_mem_chunks
    {property : Bytes → Prop}
    {branches : Branches ι}
    (every : branches.EveryChunk property)
    {chunk : Bytes}
    (listed : chunk ∈ branches.chunks) :
    property chunk := by
  induction branches with
  | nil => simp [chunks] at listed
  | cons key tag terminal below rest _ rest_holds =>
    rcases List.mem_cons.mp listed with rfl | later
    · exact every.1
    · exact rest_holds every.2.2 later

theorem EveryChunk.imp
    {property weaker : Bytes → Prop}
    (implies : ∀ chunk, property chunk → weaker chunk)
    {branches : Branches ι}
    (every : branches.EveryChunk property) :
    branches.EveryChunk weaker := by
  induction branches with
  | nil => trivial
  | cons chunk tag terminal below rest below_imp rest_imp =>
    exact ⟨implies chunk every.1, below_imp every.2.1, rest_imp every.2.2⟩

theorem EveryChunk.and
    {first second : Bytes → Prop}
    {branches : Branches ι}
    (every_first : branches.EveryChunk first)
    (every_second : branches.EveryChunk second) :
    branches.EveryChunk fun chunk => first chunk ∧ second chunk := by
  induction branches with
  | nil => trivial
  | cons chunk tag terminal below rest below_and rest_and =>
    exact ⟨⟨every_first.1, every_second.1⟩,
      below_and every_first.2.1 every_second.2.1,
      rest_and every_first.2.2 every_second.2.2⟩

/-- If no chunk is empty, no word is. -/
theorem ne_nil_of_mem_words
    {branches : Branches ι}
    (nonempty : branches.EveryChunk (· ≠ []))
    {word : Bytes}
    {member : Enumerator}
    (present : (word, member) ∈ branches.words) :
    word ≠ [] := by
  obtain ⟨chunk, listed, starts⟩ := exists_chunk_prefix present
  intro empty
  apply nonempty.of_mem_chunks listed
  exact List.prefix_nil.mp (empty ▸ starts)

/-- If words end at every leaf, branches with an edge spell a word. -/
theorem WordsAtLeaves.exists_word
    {branches : Branches ι}
    (leaves : branches.WordsAtLeaves)
    (edges : branches ≠ nil) :
    ∃ word member, (word, member) ∈ branches.words := by
  induction branches with
  | nil => exact absurd rfl edges
  | cons chunk tag terminal below rest below_word rest_word =>
    cases terminal with
    | some member =>
      exact ⟨chunk, member, mem_words_cons.mpr (Or.inl ⟨rfl, rfl⟩)⟩
    | none =>
      have goesOn : below ≠ nil := by
        intro ends
        have leaf := leaves.1
        simp [ends, isNil] at leaf
      obtain ⟨tail, member, inside⟩ := below_word leaves.2.1 goesOn
      exact ⟨chunk ++ tail, member,
        mem_words_cons.mpr (Or.inr (Or.inl ⟨tail, rfl, inside⟩))⟩

/-- If words end at every leaf, every chunk of an edge begins a word. -/
theorem WordsAtLeaves.exists_word_of_mem_chunks
    {branches : Branches ι}
    (leaves : branches.WordsAtLeaves)
    {chunk : Bytes}
    (listed : chunk ∈ branches.chunks) :
    ∃ tail member, (chunk ++ tail, member) ∈ branches.words := by
  induction branches with
  | nil => cases listed
  | cons key tag terminal below rest _ rest_word =>
    obtain ⟨leaf, belowLeaves, restLeaves⟩ := leaves
    rcases List.mem_cons.mp listed with rfl | later
    · have alone : (cons chunk tag terminal below nil).WordsAtLeaves :=
        ⟨leaf, belowLeaves, trivial⟩
      obtain ⟨word, member, present⟩ := alone.exists_word (by simp)
      rcases mem_words_cons.mp present with
        ⟨rfl, ends⟩ | ⟨tail, rfl, inside⟩ | impossible
      · exact ⟨[], member,
          mem_words_cons.mpr (Or.inl ⟨List.append_nil word, ends⟩)⟩
      · exact ⟨tail, member,
          mem_words_cons.mpr (Or.inr (Or.inl ⟨tail, rfl, inside⟩))⟩
      · cases impossible
    · obtain ⟨tail, member, present⟩ := rest_word restLeaves later
      exact ⟨tail, member, mem_words_cons.mpr (Or.inr (Or.inr present))⟩

/-! ## Nodes -/

/-- A node that branches hold is the end of an edge.  There holds what goes on
from edges to those below and to the others. -/
theorem exists_edge_of_mem_nodes
    {motive : Branches Nat → Prop}
    (onward : ∀ chunk tag terminal below rest,
      motive (cons chunk tag terminal below rest) →
        motive below ∧ motive rest)
    {branches : Branches Nat}
    (holds : motive branches)
    {node : Node}
    (listed : node ∈ branches.nodes) :
    ∃ chunk tag terminal below rest,
      motive (cons chunk tag terminal below rest) ∧
      node = ⟨tag, terminal, below.edges⟩ := by
  induction branches with
  | nil => cases listed
  | cons chunk tag terminal below rest below_edge rest_edge =>
    obtain ⟨inBelow, inRest⟩ := onward _ _ _ _ _ holds
    rw [nodes, List.cons_append, List.mem_cons, List.mem_append] at listed
    rcases listed with here | further | later
    · exact ⟨chunk, tag, terminal, below, rest, holds, here⟩
    · exact below_edge inBelow further
    · exact rest_edge inRest later

theorem WordsAtLeaves.isLeaf_eq
    {branches : Branches Nat}
    (leaves : branches.WordsAtLeaves)
    {node : Node}
    (listed : node ∈ branches.nodes) :
    node.isLeaf = node.terminal.isSome := by
  obtain ⟨_, _, _, below, _, ⟨leaf, _⟩, rfl⟩ :=
    exists_edge_of_mem_nodes (fun _ _ _ _ _ inEdges => inEdges.2) leaves listed
  exact (isEmpty_edges below).trans leaf

theorem EveryNode.of_mem_nodes
    {property : List Bytes → Prop}
    {branches : Branches Nat}
    (every : branches.EveryNode property)
    {node : Node}
    (listed : node ∈ branches.nodes) :
    property node.chunks := by
  obtain ⟨_, _, _, below, _, ⟨holds, _⟩, rfl⟩ :=
    exists_edge_of_mem_nodes (fun _ _ _ _ _ inEdges => inEdges.2) every listed
  rw [Node.chunks, map_fst_edges]
  exact holds

end Branches

theorem Trie.mem_nodes {trie : Trie} {node : Node} :
    node ∈ trie.nodes ↔ node = trie.root ∨ node ∈ trie.branches.nodes := by
  rw [nodes, List.mem_mergeSort, List.mem_cons]

end WordSwitch
