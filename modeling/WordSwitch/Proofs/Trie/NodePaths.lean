import Mathlib.Data.List.Basic
import WordSwitch.Proofs.Chunk.Widths
import WordSwitch.Proofs.Trie.Get
import WordSwitch.Trie.Levels

/-!
# The ways to the nodes

Each node is reached along the chunks on the edges that lead to it.  Inserting a
word adds the nodes along its cut and no others.  So the ways to the nodes of a
trie that is built by insertion are the beginnings of the cuts of the inserted
words, and each of them is the cut of what it spells.
-/

namespace WordSwitch

namespace Branches

variable {ι : Type}

/-- The chunks along each path to a node. -/
def paths : Branches ι → List (List Bytes)
  | nil => []
  | cons chunk _ _ below rest =>
    [chunk] :: below.paths.map (chunk :: ·) ++ rest.paths

theorem ne_nil_of_mem_paths
    {branches : Branches ι}
    {path : List Bytes}
    (listed : path ∈ branches.paths) :
    path ≠ [] := by
  induction branches with
  | nil => cases listed
  | cons chunk tag terminal below rest _ rest_ne =>
    rw [paths, List.cons_append, List.mem_cons, List.mem_append,
      List.mem_map] at listed
    obtain rfl | ⟨_, _, rfl⟩ | later := listed
    · exact List.cons_ne_nil _ _
    · exact List.cons_ne_nil _ _
    · exact rest_ne later

/-- A path leads along the first edge, to its node or to one below, or along
another edge. -/
theorem mem_paths_cons
    {chunk first : Bytes}
    {tag : ι}
    {terminal : Option Enumerator}
    {below rest : Branches ι}
    {path : List Bytes} :
    first :: path ∈ (cons chunk tag terminal below rest).paths ↔
      first = chunk ∧ (path = [] ∨ path ∈ below.paths) ∨
        first :: path ∈ rest.paths := by
  rw [paths, List.cons_append, List.mem_cons, List.mem_append, List.mem_map,
    List.cons.injEq]
  constructor
  · rintro (⟨rfl, rfl⟩ | ⟨tail, inBelow, equal⟩ | later)
    · exact Or.inl ⟨rfl, Or.inl rfl⟩
    · obtain ⟨rfl, rfl⟩ := List.cons.inj equal
      exact Or.inl ⟨rfl, Or.inr inBelow⟩
    · exact Or.inr later
  · rintro (⟨rfl, rfl | inBelow⟩ | later)
    · exact Or.inl ⟨rfl, rfl⟩
    · exact Or.inr (Or.inl ⟨path, inBelow, rfl⟩)
    · exact Or.inr (Or.inr later)

theorem paths_append (branches others : Branches ι) :
    (branches.append others).paths = branches.paths ++ others.paths := by
  induction branches with
  | nil => rfl
  | cons chunk tag terminal below rest _ rest_paths =>
    rw [append, paths, paths, rest_paths, List.append_assoc]

theorem singleton_mem_paths {chunk : Bytes} {branches : Branches ι} :
    [chunk] ∈ branches.paths ↔ chunk ∈ branches.chunks := by
  induction branches with
  | nil => simp [paths, chunks]
  | cons key tag terminal below rest _ rest_iff =>
    simp [mem_paths_cons, chunks, rest_iff]

/-- One level further down, each path has lost its first chunk. -/
theorem mem_paths_nextLevel {path : List Bytes} {branches : Branches ι} :
    path ∈ branches.nextLevel.paths ↔
      path ≠ [] ∧ ∃ chunk, chunk :: path ∈ branches.paths := by
  induction branches with
  | nil => simp [nextLevel, paths]
  | cons key tag terminal below rest _ rest_iff =>
    rw [nextLevel, paths_append, List.mem_append, rest_iff]
    simp only [mem_paths_cons]
    constructor
    · rintro (inBelow | ⟨nonempty, chunk, later⟩)
      · exact ⟨ne_nil_of_mem_paths inBelow, key,
          Or.inl ⟨rfl, Or.inr inBelow⟩⟩
      · exact ⟨nonempty, chunk, Or.inr later⟩
    · rintro ⟨nonempty, chunk, ⟨_, ended | inBelow⟩ | later⟩
      · exact absurd ended nonempty
      · exact Or.inl inBelow
      · exact Or.inr ⟨nonempty, chunk, later⟩

/-! ## Insertion -/

theorem mem_paths_chain
    {next : Nat}
    {enumerator : Enumerator}
    {chunk first : Bytes}
    {path others : List Bytes}
    {rest : Branches Nat} :
    first :: path ∈ (chain next enumerator chunk others rest).paths ↔
      first = chunk ∧ path <+: others ∨ first :: path ∈ rest.paths := by
  induction others generalizing next chunk first path rest with
  | nil =>
    rw [chain, mem_paths_cons, List.prefix_nil]
    simp [paths]
  | cons second others hypothesis =>
    rw [chain, mem_paths_cons]
    cases path with
    | nil => simp
    | cons head tail =>
      rw [hypothesis, List.cons_prefix_cons]
      simp [paths]

/-- Insertion adds the beginnings of one path. -/
theorem mem_paths_insert
    {next : Nat}
    {enumerator : Enumerator}
    {branches : Branches Nat}
    {chunk first : Bytes}
    {path others : List Bytes} :
    first :: path ∈ (branches.insert next enumerator chunk others).paths ↔
      first = chunk ∧ path <+: others ∨ first :: path ∈ branches.paths := by
  -- Along an edge that is there already, only what comes below it is new.
  induction branches generalizing chunk first path others with
  | nil => rw [insert, mem_paths_chain]
  | cons key tag terminal below rest below_iff rest_iff =>
    by_cases equal : chunk = key
    · subst equal
      cases others with
      | nil =>
        rw [insert, if_pos rfl, mem_paths_cons, mem_paths_cons,
          List.prefix_nil]
        grind
      | cons second others =>
        rw [insert, if_pos rfl, mem_paths_cons, mem_paths_cons]
        cases path with
        | nil => simp
        | cons head tail =>
          rw [below_iff, List.cons_prefix_cons]
          grind
    · rw [insert_cons_of_ne equal]
      split
      · rw [mem_paths_chain]
      · rw [mem_paths_cons, mem_paths_cons, rest_iff]
        grind

end Branches

namespace Trie

/-- The chunks along each path from the root to a node. -/
def paths (trie : Trie) : List (List Bytes) :=
  [] :: trie.branches.paths

/-- Inserting a word adds the beginnings of its cut. -/
theorem mem_paths_insert
    {trie : Trie}
    {word : Bytes}
    {enumerator : Enumerator}
    {path : List Bytes} :
    path ∈ (trie.insert word enumerator).paths ↔
      path <+: Chunk.cut trie.maxWidth word ∨ path ∈ trie.paths := by
  unfold insert paths
  cases path with
  | nil => simp
  | cons first path =>
    cases Chunk.cut trie.maxWidth word with
    | nil => simp
    | cons chunk others =>
      simp only [List.mem_cons, reduceCtorEq, false_or,
        Branches.mem_paths_insert, List.cons_prefix_cons]

/-- The nodes of a trie that is built by insertion are those on the cuts of the
inserted words. -/
theorem mem_paths_ofInsertions
    {maxWidth : Nat}
    {insertions : List Spelling}
    {path : List Bytes} :
    path ∈ (ofInsertions maxWidth insertions).paths ↔
      path = [] ∨ ∃ spelling ∈ insertions,
        path <+: Chunk.cut (max maxWidth 1) spelling.1 := by
  induction insertions using List.reverseRecOn with
  | nil => simp [ofInsertions, paths, empty, Branches.paths]
  | append_singleton earlier spelling hypothesis =>
    rw [ofInsertions_append_singleton, mem_paths_insert,
      maxWidth_ofInsertions, hypothesis]
    simp only [List.mem_append, List.mem_singleton]
    grind

/-- In a trie that is built by insertion, the path to a node is the cut of what
it spells. -/
theorem cut_flatten_of_mem_paths
    {maxWidth : Nat}
    {insertions : List Spelling}
    {path : List Bytes}
    (listed : path ∈ (ofInsertions maxWidth insertions).paths) :
    Chunk.cut (max maxWidth 1) path.flatten = path := by
  obtain rfl | ⟨spelling, _, begins⟩ := mem_paths_ofInsertions.mp listed
  · exact Chunk.cut_nil _
  · exact Chunk.cut_flatten_of_prefix begins

end Trie
end WordSwitch
