import WordSwitch.Proofs.Arena.Walks

/-!
# Words are cut in one way

A word is inserted by reading one chunk after the other at a growing offset.
No read goes beyond the end of the word.  The chunks are those of the cut, whose
widths depend on the length of the word alone, and what begins the cut of a word
is a cut itself.  So no two nodes of an arena that insertions lead to are
reached by the same bytes, though edges may overlap.
-/

namespace WordSwitch

/-- As many bytes as are asked for, from an offset on; `none` if the word ends
before. -/
def Bytes.read? (word : Bytes) (offset width : Nat) : Option Bytes :=
  if offset + width ≤ word.length then some ((word.drop offset).take width)
  else none

namespace Arena

/-- Go on to insert a word at a place, from an offset on. -/
def insertAt
    (maxWidth : Nat)
    (word : Bytes)
    (enumerator : Enumerator) :
    (limit place offset : Nat) → (nodes : List Node) →
      Option (Option Enumerator × List Node)
  | 0, _, _, _ => none
  | limit + 1, place, offset, nodes => do
    let node ← nodes[place]?
    if offset < word.length then
      let width := Chunk.readWidth (word.length - offset) maxWidth
      let chunk ← word.read? offset width
      match findIn? chunk node.edges with
      | some child =>
        insertAt maxWidth word enumerator limit child (offset + width) nodes
      | none =>
        let child := nodes.length
        let linked ← modify? (append nodes) place (Node.link chunk child)
        insertAt maxWidth word enumerator limit child (offset + width) linked
    else
      let ended ← modify? nodes place (Node.endWith (some enumerator))
      some (node.terminal, ended)

/-- Insertion at an offset inserts what is left of the word there. -/
theorem insertAt_eq_insertFrom
    {maxWidth : Nat}
    {word : Bytes}
    {enumerator : Enumerator}
    {limit place offset : Nat}
    {nodes : List Node}
    (within : offset ≤ word.length) :
    insertAt maxWidth word enumerator limit place offset nodes =
      insertFrom maxWidth enumerator limit place (word.drop offset) nodes := by
  induction limit generalizing place offset nodes with
  | zero => rfl
  | succ limit hypothesis =>
    rw [insertAt, insertFrom]
    by_cases further : offset < word.length
    · have left_over : (word.drop offset).isEmpty = false := by
        rw [List.isEmpty_eq_false_iff, ne_eq, List.drop_eq_nil_iff]
        omega
      have width_le := Chunk.readWidth_le_remaining
        (Nat.sub_pos_of_lt further) maxWidth
      have width_eq : (word.drop offset).length = word.length - offset :=
        List.length_drop
      simp only [if_pos further, left_over, width_eq, List.drop_drop]
      generalize Chunk.readWidth (word.length - offset) maxWidth = width
        at width_le
      -- A chunk is never wider than what is left, so the check succeeds.
      have reads : word.read? offset width =
          some ((word.drop offset).take width) := if_pos (by omega)
      have onward : ∀ child changed,
          insertAt maxWidth word enumerator limit child (offset + width)
              changed =
            insertFrom maxWidth enumerator limit child
              (word.drop (offset + width)) changed :=
        fun _ _ => hypothesis (by omega)
      simp only [reads, onward]
      rfl
    · have nothing_left : (word.drop offset).isEmpty = true := by
        rw [List.isEmpty_iff, List.drop_eq_nil_iff]
        omega
      simp only [if_neg further, nothing_left]
      rfl

/-- Let a word stand for an enumerator, reading its chunks at their offsets. -/
def insertByOffset
    (arena : Arena)
    (word : Bytes)
    (enumerator : Enumerator)
    (limit : Nat) :
    Option (Option Enumerator × Arena) := do
  let (replaced, nodes) ←
    insertAt arena.maxWidth word enumerator limit 0 0 arena.nodes
  some (replaced, ⟨arena.maxWidth, nodes⟩)

/-- No read goes beyond the end of the word while it is inserted. -/
theorem insertByOffset_eq_insert
    (arena : Arena)
    (word : Bytes)
    (enumerator : Enumerator) :
    arena.insertByOffset word enumerator = arena.insert word enumerator := by
  funext limit
  rw [insertByOffset, insertAt_eq_insertFrom (Nat.zero_le _), List.drop_zero,
    insert]

/-- The bytes that lead from the root to a place of the arena of a trie built by
insertion determine the walk. -/
theorem eq_cut_of_walks
    {maxWidth : Nat}
    {insertions : List Spelling}
    {path : List Bytes}
    {place : Nat}
    (walks :
      (ofTrie (Trie.ofInsertions maxWidth insertions)).Walks 0 path place) :
    path = Chunk.cut (max maxWidth 1) path.flatten := by
  have represents := (represents_ofInsertions maxWidth insertions).2
  have listed := represents.exists_walks_iff.mp ⟨place, walks⟩
  exact (Trie.cut_flatten_of_mem_paths listed).symm

/-- In the arena that insertions lead to, a word is inserted along its cut, which
is canonical, and every read on the way stays within it.  The nodes are reached
along the beginnings of the cuts of the inserted words, and no two of them are
reached by the same bytes. -/
theorem insertions_along_cuts
    (maxWidth : Nat)
    (insertions : List Spelling)
    (word : Bytes)
    (enumerator : Enumerator) :
    let limit := max maxWidth 1
    let trie := Trie.ofInsertions maxWidth insertions
    let arena := ofTrie trie
    Chunk.CanonicalCut limit word ∧
    EndsWith
      (reached maxWidth
        (insertions.map fun spelling => .insert spelling.1 spelling.2))
      arena ∧
    EndsWith (arena.insertByOffset word enumerator)
      (trie.replaced? word, ofTrie (trie.insert word enumerator)) ∧
    (∀ path, (∃ place, arena.Walks 0 path place) ↔
      path = [] ∨ ∃ spelling ∈ insertions,
        path <+: Chunk.cut limit spelling.1) ∧
    ∀ bytes first second, arena.Leads 0 bytes first →
      arena.Leads 0 bytes second → first = second := by
  intro limit trie arena
  have formed := Trie.wellFormed_ofInsertions maxWidth insertions
  obtain ⟨ends, represents⟩ := represents_ofInsertions maxWidth insertions
  refine ⟨Chunk.canonicalCut (Nat.le_max_right _ _) word, ends, ?_, ?_, ?_⟩
  · obtain ⟨changed, inserted, represented⟩ :=
      represents.insert formed.sorted word enumerator
    rw [insertByOffset_eq_insert, ← represented.eq_ofTrie]
    exact inserted
  · intro path
    rw [represents.exists_walks_iff, Trie.mem_paths_ofInsertions]
  · intro bytes first second firstLeads secondLeads
    obtain ⟨path, rfl, firstWalks⟩ := leads_iff.mp firstLeads
    obtain ⟨other, same_bytes, secondWalks⟩ := leads_iff.mp secondLeads
    have same_path : other = path := by
      rw [eq_cut_of_walks secondWalks, same_bytes, ← eq_cut_of_walks firstWalks]
    subst same_path
    exact (represents.wellLinked formed).eq_of_walks firstWalks secondWalks

end Arena
end WordSwitch
