import WordSwitch.Proofs.Trie.Get

/-!
# Tries as finite maps

A trie that is built by insertion maps every word to what was inserted for it
last.  Its edges may overlap, since words are cut by their lengths, but a word
is found and listed only along its own cut.  The words are listed in the order
of their cuts, so none of them is listed twice.
-/

namespace WordSwitch

namespace Branches

variable {ι : Type}

/-- Every word is listed along its own cut, which begins with the chunk of an
edge. -/
theorem PathsCut.exists_cut
    {maxWidth : Nat}
    {branches : Branches ι}
    (cut : branches.PathsCut maxWidth)
    (sorted : branches.Sorted)
    {word : Bytes}
    {member : Enumerator}
    (present : (word, member) ∈ branches.words) :
    ∃ chunk ∈ branches.chunks, ∃ path,
      Chunk.cut maxWidth word = chunk :: path := by
  obtain ⟨chunk, path, rfl, found⟩ := sorted.mem_words_iff.mp present
  exact ⟨chunk, mem_chunks_of_terminalAt? found, path,
    cut chunk path member found⟩

section

variable
  {maxWidth : Nat}
  {chunk : Bytes}
  {tag : ι}
  {terminal : Option Enumerator}
  {below rest : Branches ι}

/-- A word that ends with an edge is cut into nothing but its chunk. -/
theorem PathsCut.cut_chunk
    (cut : (cons chunk tag terminal below rest).PathsCut maxWidth)
    {member : Enumerator}
    (ends : terminal = some member) :
    Chunk.cut maxWidth chunk = [chunk] := by
  have own := cut chunk [] member (by simpa using ends)
  rwa [List.flatten_singleton] at own

/-- The cut of a word that goes on below an edge goes on behind its chunk. -/
theorem PathsCut.cut_append
    (cut : (cons chunk tag terminal below rest).PathsCut maxWidth)
    (sorted : below.Sorted)
    {tail : Bytes}
    {member : Enumerator}
    (present : (tail, member) ∈ below.words) :
    Chunk.cut maxWidth (chunk ++ tail) = chunk :: Chunk.cut maxWidth tail := by
  obtain ⟨second, path, rfl, found⟩ := sorted.mem_words_iff.mp present
  have whole := cut chunk (second :: path) member (by simpa)
  rw [cut.below second path member found]
  exact whole

/-- The cut of a word that is listed for an edge begins with its chunk. -/
theorem PathsCut.exists_cut_of_edge
    (cut : (cons chunk tag terminal below rest).PathsCut maxWidth)
    (sorted : below.Sorted)
    {spelling : Spelling}
    (present : spelling ∈ ownSpelling chunk terminal ++
      below.words.map (extend chunk)) :
    ∃ path, Chunk.cut maxWidth spelling.1 = chunk :: path := by
  rcases List.mem_append.mp present with own | extended
  · obtain ⟨spelled, ends⟩ := mem_ownSpelling.mp own
    exact ⟨[], spelled ▸ cut.cut_chunk ends⟩
  · obtain ⟨⟨tail, member⟩, inside, rfl⟩ := List.mem_map.mp extended
    exact ⟨_, cut.cut_append sorted inside⟩

end

/-- If every word is listed along its cut, the cuts ascend. -/
theorem PathsCut.pairwise_cuts
    {maxWidth : Nat}
    {branches : Branches ι}
    (cut : branches.PathsCut maxWidth)
    (sorted : branches.Sorted)
    (nonempty : branches.EveryChunk (· ≠ [])) :
    branches.words.Pairwise fun first second =>
      Chunk.cut maxWidth first.1 < Chunk.cut maxWidth second.1 := by
  induction branches with
  | nil => exact List.Pairwise.nil
  | cons chunk tag terminal below rest below_pairwise rest_pairwise =>
    obtain ⟨first, belowSorted, restSorted⟩ := sorted
    obtain ⟨_, belowNonempty, restNonempty⟩ := nonempty
    have restCut := cut.rest ⟨first, belowSorted, restSorted⟩
    rw [words_cons, List.pairwise_append, List.pairwise_append]
    refine ⟨⟨?_, ?_, ?_⟩, rest_pairwise restCut restSorted restNonempty, ?_⟩
    · exact pairwise_ownSpelling _ chunk terminal
    · rw [List.pairwise_map]
      refine (below_pairwise cut.below belowSorted belowNonempty).imp_of_mem ?_
      rintro ⟨tail, member⟩ ⟨otherTail, otherMember⟩ inside otherInside before
      rw [extend, extend, cut.cut_append belowSorted inside,
        cut.cut_append belowSorted otherInside]
      exact List.cons_lt_cons_iff.mpr (Or.inr ⟨rfl, before⟩)
    · rintro ⟨own, member⟩ inOwn other inExtended
      obtain ⟨⟨tail, otherMember⟩, inside, rfl⟩ := List.mem_map.mp inExtended
      obtain ⟨rfl, ends⟩ := mem_ownSpelling.mp inOwn
      rw [extend, cut.cut_chunk ends, cut.cut_append belowSorted inside]
      exact List.cons_lt_cons_iff.mpr (Or.inr ⟨rfl,
        Chunk.nil_lt_cut maxWidth (ne_nil_of_mem_words belowNonempty inside)⟩)
    · rintro spelling inEdge ⟨other, otherMember⟩ inRest
      obtain ⟨path, cut_eq⟩ := cut.exists_cut_of_edge belowSorted inEdge
      obtain ⟨key, inChunks, otherPath, otherCut_eq⟩ :=
        restCut.exists_cut restSorted inRest
      rw [cut_eq, otherCut_eq]
      exact List.cons_lt_cons_iff.mpr (Or.inl (first key inChunks))

end Branches

namespace Trie

section

variable {trie : Trie}

theorem Canonical.get?_eq_some_iff
    (canonical : trie.Canonical)
    {word : Bytes}
    {member : Enumerator} :
    trie.get? word = some member ↔ (word, member) ∈ trie.words :=
  get?_eq_some_iff_of_functional canonical.nonempty
    fun _ _ _ first_mem second_mem =>
      canonical.words_functional (mem_words.mpr (Or.inr first_mem))
        (mem_words.mpr (Or.inr second_mem))

theorem Canonical.mem_map_words
    (canonical : trie.Canonical)
    {word : Bytes} :
    word ∈ trie.words.map (·.1) ↔ (trie.get? word).isSome = true := by
  simp [Option.isSome_iff_exists, canonical.get?_eq_some_iff]

/-- What is found for a word is what its cut leads to. -/
theorem Canonical.get?_eq_terminal?
    (canonical : trie.Canonical)
    (word : Bytes) :
    trie.get? word = trie.terminal? (Chunk.cut trie.maxWidth word) := by
  refine Option.ext fun member => ?_
  rw [canonical.get?_eq_some_iff, canonical.mem_words_iff]

/-- What insertion replaces is what was found. -/
theorem Canonical.replaced?_eq_get?
    (canonical : trie.Canonical)
    (word : Bytes) :
    trie.replaced? word = trie.get? word := by
  rw [canonical.get?_eq_terminal?, replaced?]
  cases Chunk.cut trie.maxWidth word <;> rfl

theorem Canonical.get?_insert
    (canonical : trie.Canonical)
    (word : Bytes)
    (member : Enumerator)
    (other : Bytes) :
    (trie.insert word member).get? other =
      if other = word then some member else trie.get? other := by
  rw [(canonical.insert word member).get?_eq_terminal?, maxWidth_insert,
    canonical.terminal?_insert, canonical.get?_eq_terminal?]
  simp [(Chunk.cut_injective trie.maxWidth).eq_iff]

/-- A trie that is built by insertion lists its words in the order of their
cuts. -/
theorem Canonical.pairwise_cuts
    (canonical : trie.Canonical) :
    trie.words.Pairwise fun first second =>
      Chunk.cut trie.maxWidth first.1 < Chunk.cut trie.maxWidth second.1 := by
  rw [words, List.pairwise_append]
  refine ⟨Branches.pairwise_ownSpelling _ _ _,
    canonical.pathsCut.pairwise_cuts canonical.sorted canonical.nonempty, ?_⟩
  rintro ⟨own, member⟩ inOwn ⟨word, other⟩ inBranches
  obtain ⟨rfl, _⟩ := Branches.mem_ownSpelling.mp inOwn
  exact Chunk.nil_lt_cut trie.maxWidth
    (canonical.mem_words_of_ne_nil inBranches)

theorem Canonical.nodup_words (canonical : trie.Canonical) :
    (trie.words.map (·.1)).Nodup := by
  refine List.pairwise_map.mpr (canonical.pairwise_cuts.imp ?_)
  intro first second before same
  rw [same] at before
  exact List.lt_irrefl _ before

end

/-- What was inserted last for a word. -/
def lastInserted? (insertions : List Spelling) (word : Bytes) :
    Option Enumerator :=
  ((insertions.filter (·.1 == word)).getLast?).map (·.2)

theorem lastInserted?_append_singleton
    (earlier : List Spelling)
    (spelling : Spelling)
    (word : Bytes) :
    lastInserted? (earlier ++ [spelling]) word =
      if word = spelling.1 then some spelling.2
      else lastInserted? earlier word := by
  unfold lastInserted?
  rw [List.filter_append, List.filter_singleton]
  by_cases same : word = spelling.1
  · simp [same]
  · have differs : (spelling.1 == word) = false := by
      simpa using Ne.symm same
    simp [same, differs]

theorem isSome_lastInserted?
    {insertions : List Spelling}
    {word : Bytes} :
    (lastInserted? insertions word).isSome = true ↔
      word ∈ insertions.map (·.1) := by
  simp [lastInserted?]

theorem get?_ofInsertions
    (maxWidth : Nat)
    (insertions : List Spelling)
    (word : Bytes) :
    (ofInsertions maxWidth insertions).get? word =
      lastInserted? insertions word := by
  induction insertions using List.reverseRecOn with
  | nil => cases word <;> rfl
  | append_singleton earlier spelling hypothesis =>
    have canonical := canonical_ofInsertions maxWidth earlier
    rw [ofInsertions_append_singleton, canonical.get?_insert,
      lastInserted?_append_singleton, hypothesis]

/-- The words that are listed are those that were inserted. -/
theorem mem_map_words_ofInsertions
    {maxWidth : Nat}
    {insertions : List Spelling}
    {word : Bytes} :
    word ∈ (ofInsertions maxWidth insertions).words.map (·.1) ↔
      word ∈ insertions.map (·.1) := by
  have canonical := canonical_ofInsertions maxWidth insertions
  rw [canonical.mem_map_words, get?_ofInsertions, isSome_lastInserted?]

/-- A trie that is built by insertion finds for every input what was inserted
for it last, and lists each inserted word once, with that.  One more insertion
replaces what was found for its word and keeps what is found for all others. -/
theorem map_of_insertions (maxWidth : Nat) (insertions : List Spelling) :
    let trie := ofInsertions maxWidth insertions
    (∀ input, trie.get? input = lastInserted? insertions input) ∧
    (∀ word member, trie.replaced? word = trie.get? word ∧
      ∀ other, (trie.insert word member).get? other =
        if other = word then some member else trie.get? other) ∧
    (trie.words.map (·.1)).Nodup ∧
    ∀ word member, (word, member) ∈ trie.words ↔
      lastInserted? insertions word = some member := by
  intro trie
  have canonical := canonical_ofInsertions maxWidth insertions
  have found_eq := get?_ofInsertions maxWidth insertions
  refine ⟨found_eq, ?_, canonical.nodup_words, ?_⟩
  · intro word member
    exact ⟨canonical.replaced?_eq_get? word,
      canonical.get?_insert word member⟩
  · intro word member
    rw [← canonical.get?_eq_some_iff, found_eq]

/-- The chunk of one edge may begin that of another. -/
example :
    let trie := ofInsertions 4 [([97, 98, 99, 100], ⟨"Wide", 1⟩),
      ([97, 98, 122], ⟨"Narrow", 2⟩), ([97, 98, 122], ⟨"Last", 3⟩)]
    trie.root.chunks = [[97, 98], [97, 98, 99, 100]] ∧
      trie.get? [97, 98, 99, 100] = some ⟨"Wide", 1⟩ ∧
      trie.get? [97, 98, 122] = some ⟨"Last", 3⟩ := by
  decide

end Trie
end WordSwitch
