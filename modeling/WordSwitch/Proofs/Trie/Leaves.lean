import WordSwitch.Proofs.Trie.Settled

/-!
# What recutting keeps of any words

If words of several lengths are recut, an edge may be used up where another one
goes on, and what is cut off the other comes between its chunk and those below
it.  A word that ends on the way can be lost then.  No word is made up, though,
none is listed twice, and those that end at leaves are kept.
-/

namespace WordSwitch

namespace Branches

variable {ι : Type}

/-- The words that end at the leaves. -/
def leafWords : Branches ι → List Spelling
  | nil => []
  | cons chunk _ terminal below rest =>
    (if below.isNil then ownSpelling [] terminal else below.leafWords).map
      (extend chunk) ++ rest.leafWords

/-- The words that end at the leaves from a node on.  Without edges it is a leaf
itself. -/
def leafWordsFrom
    (terminal : Option Enumerator)
    (branches : Branches ι) :
    List Spelling :=
  if branches.isNil then ownSpelling [] terminal else branches.leafWords

theorem leafWords_cons
    (chunk : Bytes)
    (tag : ι)
    (terminal : Option Enumerator)
    (below rest : Branches ι) :
    (cons chunk tag terminal below rest).leafWords =
      (leafWordsFrom terminal below).map (extend chunk) ++ rest.leafWords :=
  rfl

theorem leafWords_append (branches others : Branches ι) :
    (branches.append others).leafWords =
      branches.leafWords ++ others.leafWords := by
  induction branches with
  | nil => rfl
  | cons chunk tag terminal below rest _ rest_words =>
    rw [append, leafWords_cons, leafWords_cons, rest_words, List.append_assoc]

theorem leafWords_prepend (bytes : Bytes) (branches : Branches ι) :
    (branches.prepend bytes).leafWords =
      branches.leafWords.map (extend bytes) := by
  induction branches with
  | nil => rfl
  | cons chunk tag terminal below rest _ rest_words =>
    have extended : extend (bytes ++ chunk) = extend bytes ∘ extend chunk :=
      funext fun spelling => by simp [extend]
    rw [prepend, leafWords_cons, leafWords_cons, rest_words, List.map_append,
      List.map_map, extended]

theorem mem_words_of_mem_leafWords
    {branches : Branches ι}
    {spelling : Spelling}
    (present : spelling ∈ branches.leafWords) :
    spelling ∈ branches.words := by
  induction branches generalizing spelling with
  | nil => cases present
  | cons chunk tag terminal below rest below_words rest_words =>
    rw [leafWords_cons, List.mem_append, List.mem_map] at present
    obtain ⟨tail, inEdge, rfl⟩ | inRest := present
    · unfold leafWordsFrom at inEdge
      split at inEdge
      · exact extend_mem_words_cons (List.mem_append_left _ inEdge)
      · exact extend_mem_words_cons
          (List.mem_append_right _ (below_words inEdge))
    · exact List.mem_append_right _ (rest_words inRest)

/-! ## Consuming the first bytes -/

/-- What is left of an edge leads to the same leaves, unless nothing is left of
it and it led to a leaf. -/
theorem extend_mem_leafWords_advanceEdge
    {remainder : Bytes}
    {tag : ι}
    {terminal : Option Enumerator}
    {below : Branches ι}
    {spelling : Spelling}
    (present : spelling ∈ leafWordsFrom terminal below)
    (longer : remainder ++ spelling.1 ≠ []) :
    extend remainder spelling ∈
      (advanceEdge remainder tag terminal below).leafWords := by
  unfold leafWordsFrom at present
  unfold advanceEdge
  split
  · next used =>
    rw [List.isEmpty_iff] at used
    subst used
    split at present
    · exact absurd (mem_ownSpelling.mp present).1 longer
    · exact present
  · split
    · next ends =>
      rw [if_pos ends] at present
      rw [leafWords_cons, leafWords, List.append_nil]
      exact List.mem_map_of_mem present
    · next goesOn =>
      rw [if_neg goesOn] at present
      rw [leafWords_prepend]
      exact List.mem_map_of_mem present

/-- The leaves that words lead to which begin with the bytes of a group and are
longer are leaves of the group. -/
theorem mem_leafWords_group
    {width : Nat}
    {start : Bytes}
    {branches : Branches ι}
    (wide : ∀ chunk ∈ branches.chunks, width ≤ chunk.length)
    (start_length : start.length = width)
    {spelling : Spelling}
    (longer : spelling.1 ≠ [])
    (present : extend start spelling ∈ branches.leafWords) :
    spelling ∈
      ((branches.startingWith width start).advance width).leafWords := by
  subst start_length
  induction branches with
  | nil => cases present
  | cons chunk tag terminal below rest _ rest_leaves =>
    obtain ⟨within, restWide⟩ := List.forall_mem_cons.mp wide
    have later := fun inRest => rest_leaves inRest restWide
    rw [leafWords_cons, List.mem_append, List.mem_map] at present
    unfold startingWith
    split
    · next begins =>
      rw [advance, leafWords_append, List.mem_append]
      obtain ⟨tail, inEdge, equal⟩ | inRest := present
      · rw [← append_drop_of_take_eq begins] at equal
        have extended : extend (chunk.drop start.length) tail = spelling := by
          simpa [extend, Prod.ext_iff] using equal
        subst extended
        exact Or.inl (extend_mem_leafWords_advanceEdge inEdge longer)
      · exact Or.inr (later inRest)
    · next other =>
      obtain ⟨tail, inEdge, equal⟩ | inRest := present
      · exact absurd
          (take_eq_of_append_eq within (congrArg Prod.fst equal).symm) other
      · exact later inRest

/-! ## Recutting -/

section

variable
  {cutting : Cutting}
  {branches : Branches ι}

/-- Recutting makes up no words. -/
theorem mem_words_of_mem_words_recutWithin
    (nonempty : branches.EveryChunk (· ≠ []))
    {bound : Nat}
    {word : Bytes}
    {member : Enumerator}
    (present : (word, member) ∈ (branches.recutWithin cutting bound).words) :
    (word, member) ∈ branches.words := by
  induction bound generalizing branches word with
  | zero => cases present
  | succ bound hypothesis =>
    rw [recutWithin_succ, mem_words_fan] at present
    obtain ⟨start, _, ⟨rfl, ends⟩ | ⟨tail, rfl, further⟩⟩ := present
    · exact mem_words_of_landing
        (fun _ => commonWidth_le_length cutting nonempty) ends
    · have inGroup := hypothesis (group_nonempty nonempty start) further
      exact (of_mem_words_group nonempty inGroup).2

/-- If no word stands for two enumerators, recutting keeps the words that end at
the leaves. -/
theorem mem_words_recutWithin_of_mem_leafWords
    (positive : 0 < cutting.maxWidth)
    (nonempty : branches.EveryChunk (· ≠ []))
    (functional : ∀ word first second, (word, first) ∈ branches.words →
      (word, second) ∈ branches.words → first = second)
    {bound : Nat}
    (enough : branches.levelBound ≤ bound)
    {word : Bytes}
    {member : Enumerator}
    (present : (word, member) ∈ branches.leafWords) :
    (word, member) ∈ (branches.recutWithin cutting bound).words := by
  induction bound generalizing branches word with
  | zero =>
    rw [eq_nil_of_levelBound enough] at present
    cases present
  | succ bound hypothesis =>
    have wide : ∀ chunk ∈ branches.chunks,
        branches.commonWidth cutting ≤ chunk.length :=
      fun _ => commonWidth_le_length cutting nonempty
    have inWords := mem_words_of_mem_leafWords present
    obtain ⟨start, listed, tail, rfl⟩ := exists_start cutting inWords
    have start_length : start.length = branches.commonWidth cutting := by
      obtain ⟨chunk, inChunks, rfl⟩ := mem_starts.mp listed
      rw [List.length_take, Nat.min_eq_left (wide chunk inChunks)]
    rw [recutWithin_succ, mem_words_fan]
    refine ⟨start, listed, ?_⟩
    by_cases ended : tail = []
    · subst ended
      rw [List.append_nil] at inWords ⊢
      obtain ⟨other, lands⟩ := Option.isSome_iff_exists.mp
        (isSome_landing_of_mem_words nonempty wide start_length inWords)
      have same := functional start other member
        (mem_words_of_landing wide lands) inWords
      exact Or.inl ⟨rfl, same ▸ lands⟩
    · refine Or.inr ⟨tail, rfl, ?_⟩
      refine hypothesis (group_nonempty nonempty start) ?_
        (levelBound_of_group positive nonempty enough start)
        (mem_leafWords_group wide start_length ended present)
      intro word first second first_mem second_mem
      exact functional (start ++ word) first second
        (of_mem_words_group nonempty first_mem).2
        (of_mem_words_group nonempty second_mem).2

/-- Settled branches are ordered. -/
theorem Settled.ordered (settled : branches.Settled cutting) :
    branches.Ordered := by
  obtain ⟨sorted, ⟨width, here⟩, further⟩ := settled
  induction branches generalizing width with
  | nil => trivial
  | cons chunk tag terminal below rest below_ordered rest_ordered =>
    obtain ⟨first, belowSorted, restSorted⟩ := sorted
    obtain ⟨⟨belowWidth, belowHere⟩, belowFurther, restFurther⟩ := further
    obtain ⟨chunk_width, restHere⟩ := List.forall_mem_cons.mp here
    refine ⟨?_, below_ordered belowSorted belowFurther belowWidth belowHere,
      rest_ordered restSorted restFurther width restHere⟩
    intro other listed
    exact ⟨first other listed,
      chunk_width.1.trans (restHere other listed).1.symm⟩

end

end Branches

namespace Trie

/-- The words that end at the leaves. -/
def leafWords (trie : Trie) : List Spelling :=
  Branches.leafWordsFrom trie.terminal trie.branches

section

variable
  {trie : Trie}
  {ignoreCase : Bool}
  {maxWidth : Nat}

theorem WellFormed.mem_words_of_mem_words_recut
    (formed : trie.WellFormed)
    {spelling : Spelling}
    (present : spelling ∈ (trie.recut ignoreCase maxWidth).words) :
    spelling ∈ trie.words := by
  rw [mem_words] at present ⊢
  rw [Trie.recut, Branches.words_numberDownward] at present
  exact present.imp_right
    (Branches.mem_words_of_mem_words_recutWithin formed.nonempty)

theorem WellFormed.mem_words_recut_of_mem_leafWords
    (formed : trie.WellFormed)
    (functional : ∀ word first second, (word, first) ∈ trie.words →
      (word, second) ∈ trie.words → first = second)
    {spelling : Spelling}
    (present : spelling ∈ trie.leafWords) :
    spelling ∈ (trie.recut ignoreCase maxWidth).words := by
  have positive : 0 < Cutting.maxWidth ⟨ignoreCase, max maxWidth 1⟩ :=
    Nat.lt_of_lt_of_le Nat.one_pos (Nat.le_max_right maxWidth 1)
  rw [mem_words, Trie.recut, Branches.words_numberDownward]
  unfold leafWords Branches.leafWordsFrom at present
  split at present
  · exact Or.inl (Branches.mem_ownSpelling.mp present)
  · refine Or.inr (Branches.mem_words_recutWithin_of_mem_leafWords positive
      formed.nonempty ?_ (Nat.le_refl _) present)
    intro word first second first_mem second_mem
    exact functional word first second
      (mem_words.mpr (Or.inr first_mem)) (mem_words.mpr (Or.inr second_mem))

/-- Recutting lists the words that it keeps in ascending order. -/
theorem WellFormed.pairwise_words_recut
    (formed : trie.WellFormed)
    (ignoreCase : Bool)
    (maxWidth : Nat) :
    (trie.recut ignoreCase maxWidth).words.Pairwise Spelling.Before :=
  pairwise_words (formed.recut ignoreCase maxWidth).nonempty
    (formed.settled_recut ignoreCase maxWidth).ordered

/-- After recutting, the chunks that leave a node have one width. -/
theorem WellFormed.settled_node_of_recut
    (formed : trie.WellFormed)
    {node : Node}
    (listed : node ∈ (trie.recut ignoreCase maxWidth).nodes) :
    Chunk.Settled ignoreCase (max maxWidth 1) node.chunks := by
  have settled := formed.settled_recut ignoreCase maxWidth
  rcases mem_nodes.mp listed with rfl | further
  · rw [Node.chunks, root, Branches.map_fst_edges]
    exact settled.here
  · exact settled.further.of_mem_nodes further

end

end Trie

end WordSwitch
