import Mathlib.Data.List.Pairwise
import WordSwitch.Proofs.Trie.Map

/-!
# Words that overtake others

A trie lists its words in the order of their cuts, piece by piece.  This need
not be the order of their bytes.  Where only a few bytes of a word are left, its
next chunk may be narrow and begin the wide chunk of a longer word.  Then the
word is listed first, even if its further bytes put it behind the longer one.
A trie that is built by insertion lists its words in ascending order exactly if
no inserted word overtakes another in this way.
-/

namespace WordSwitch

namespace Chunk

/-- A word overtakes another that stands before it: their cuts part where the
chunk of the word begins that of the other. -/
def Overtakes (maxWidth : Nat) (word other : Bytes) : Prop :=
  other < word ∧
  ∃ path chunk wider,
    path ++ [chunk] <+: cut maxWidth word ∧
    path ++ [wider] <+: cut maxWidth other ∧
    chunk <+: wider ∧
    chunk ≠ wider

/-- If pieces stand before others but not what they make up, they part where a
piece begins another. -/
theorem exists_parting
    {pieces others : List Bytes}
    (before : pieces < others)
    (after : others.flatten < pieces.flatten) :
    ∃ path chunk wider,
      path ++ [chunk] <+: pieces ∧
      path ++ [wider] <+: others ∧
      chunk <+: wider ∧
      chunk ≠ wider := by
  induction pieces generalizing others with
  | nil => exact absurd after (List.not_lt_nil _)
  | cons piece rest hypothesis =>
    cases others with
    | nil => exact absurd before (List.not_lt_nil _)
    | cons other further =>
      rw [List.flatten_cons, List.flatten_cons] at after
      rcases List.cons_lt_cons_iff.mp before with less | ⟨rfl, later⟩
      · by_cases begins : piece <+: other
        · refine ⟨[], piece, other, ⟨rest, rfl⟩, ⟨further, rfl⟩, begins, ?_⟩
          rintro rfl
          exact List.lt_irrefl piece less
        · exact absurd after (List.lt_asymm
            (Bytes.append_lt_append_of_not_prefix less begins _ _))
      · have laterAfter : further.flatten < rest.flatten := by
          by_contra notAfter
          have extended : piece ++ rest.flatten ≤ piece ++ further.flatten :=
            List.append_left_le (List.not_lt.mp notAfter)
          exact List.not_lt.mpr extended after
        obtain ⟨path, chunk, wider, inRest, inFurther, begins, differ⟩ :=
          hypothesis later laterAfter
        exact ⟨piece :: path, chunk, wider,
          List.cons_prefix_cons.mpr ⟨rfl, inRest⟩,
          List.cons_prefix_cons.mpr ⟨rfl, inFurther⟩, begins, differ⟩

/-- A word overtakes another if the order of their cuts is not that of their
bytes. -/
theorem overtakes_iff
    {maxWidth : Nat}
    {word other : Bytes} :
    Overtakes maxWidth word other ↔
      other < word ∧ cut maxWidth word < cut maxWidth other := by
  refine and_congr_right fun after => ⟨?_, ?_⟩
  · rintro ⟨path, chunk, wider, ⟨rest, wordCut⟩, ⟨further, otherCut⟩,
      ⟨tail, rfl⟩, differ⟩
    have less : chunk < chunk ++ tail :=
      Bytes.lt_append_of_ne_nil chunk fun nothing =>
        differ (by rw [nothing, List.append_nil])
    rw [← wordCut, ← otherCut, List.append_assoc, List.append_assoc]
    exact List.append_left_lt (List.cons_lt_cons_iff.mpr (Or.inl less))
  · intro before
    refine exists_parting before ?_
    rwa [flatten_cut, flatten_cut]

instance (maxWidth : Nat) (word other : Bytes) :
    Decidable (Overtakes maxWidth word other) :=
  decidable_of_iff _ overtakes_iff.symm

/-- The chunks at which the cuts part are as wide as the bytes that are left
there allow. -/
theorem Overtakes.exists_widths
    {maxWidth : Nat}
    {word other : Bytes}
    (overtakes : Overtakes maxWidth word other) :
    ∃ before remaining others,
      word.length = before + remaining ∧
      other.length = before + others ∧
      readWidth remaining maxWidth < readWidth others maxWidth ∧
      readWidth remaining maxWidth < remaining := by
  obtain ⟨after, path, chunk, wider, ⟨rest, wordCut⟩, ⟨further, otherCut⟩,
    begins, differ⟩ := overtakes
  rw [List.append_assoc, List.singleton_append] at wordCut otherCut
  have word_eq : path.flatten ++ (chunk ++ rest.flatten) = word :=
    flatten_append_flatten_of_cut wordCut.symm
  have other_eq : path.flatten ++ (wider ++ further.flatten) = other :=
    flatten_append_flatten_of_cut otherCut.symm
  have chunk_width := (of_cut_append (cut_flatten_of_cut wordCut.symm)).1
  have wider_width := (of_cut_append (cut_flatten_of_cut otherCut.symm)).1
  have narrower : chunk.length < wider.length :=
    Nat.lt_of_le_of_ne begins.length_le fun same =>
      differ (begins.eq_of_length same)
  have goes_on : rest.flatten ≠ [] := by
    -- Otherwise the word would begin the other, and stand before it.
    intro ends
    have word_prefix : word <+: other := by
      rw [← word_eq, ← other_eq, ends, List.append_nil]
      exact (List.prefix_append_right_inj _).mpr
        (begins.trans (List.prefix_append _ _))
    exact List.not_lt.mpr word_prefix.le after
  refine ⟨path.flatten.length, (chunk ++ rest.flatten).length,
    (wider ++ further.flatten).length, ?_, ?_, ?_, ?_⟩
  · rw [← word_eq, List.length_append]
  · rw [← other_eq, List.length_append]
  · rw [← chunk_width, ← wider_width]
    exact narrower
  · rw [← chunk_width, List.length_append]
    exact Nat.lt_add_of_pos_right (List.length_pos_iff.mpr goes_on)

/-- No word is overtaken where at most three bytes are read at once. -/
theorem Overtakes.four_le
    {maxWidth : Nat}
    {word other : Bytes}
    (overtakes : Overtakes maxWidth word other) :
    4 ≤ maxWidth := by
  obtain ⟨_, remaining, others, _, _, narrower, goes_on⟩ :=
    overtakes.exists_widths
  by_contra few
  have positive := readWidth_pos remaining maxWidth
  have bound := readWidth_le others maxWidth
  have two_read : readWidth 2 maxWidth = 2 :=
    readWidth_of_readable ⟨by omega, 1, rfl⟩
  have two_le := readWidth_mono maxWidth (show 2 ≤ remaining by omega)
  obtain ⟨_, exponent, width_eq⟩ :=
    readableWithin_readWidth (show 0 < maxWidth by omega) others
  have three : 2 ^ exponent = 3 := by omega
  cases exponent with
  | zero => cases three
  | succ exponent =>
    rw [Nat.pow_succ] at three
    omega

end Chunk

namespace Trie

/-- The words of a trie that is built by insertion ascend exactly if none of
them overtakes another. -/
theorem Canonical.pairwise_words_iff
    {trie : Trie}
    (canonical : trie.Canonical) :
    trie.words.Pairwise Spelling.Before ↔
      ∀ word ∈ trie.words.map (·.1), ∀ other ∈ trie.words.map (·.1),
        ¬Chunk.Overtakes trie.maxWidth word other := by
  have cuts := canonical.pairwise_cuts
  simp only [List.forall_mem_map]
  constructor
  · intro ascending
    have apart : ∀ ⦃word⦄, word ∈ trie.words → ∀ ⦃other⦄, other ∈ trie.words →
        ¬Chunk.Overtakes trie.maxWidth word.1 other.1 := by
      refine List.Pairwise.forall_of_forall_of_flip ?_ (ascending.imp ?_)
        (cuts.imp ?_)
      · exact fun spelling _ overtakes => List.lt_irrefl spelling.1 overtakes.1
      · exact fun before overtakes => List.lt_asymm before overtakes.1
      · exact fun before overtakes =>
          List.lt_asymm before (Chunk.overtakes_iff.mp overtakes).2
    exact fun word listed other otherListed => apart listed otherListed
  · intro none_overtakes
    have distinct := List.pairwise_map.mp canonical.nodup_words
    refine (cuts.and distinct).imp_of_mem ?_
    intro word other listed otherListed ⟨before, differ⟩
    by_contra notBefore
    refine none_overtakes word listed other otherListed
      (Chunk.overtakes_iff.mpr ⟨?_, before⟩)
    exact Std.lt_of_le_of_ne (List.not_lt.mp notBefore) (Ne.symm differ)

/-- A trie that is built by insertion lists its words in ascending order exactly
if no inserted word overtakes another. -/
theorem ascending_words_iff (maxWidth : Nat) (insertions : List Spelling) :
    (ofInsertions maxWidth insertions).words.Pairwise Spelling.Before ↔
      ∀ word ∈ insertions.map (·.1), ∀ other ∈ insertions.map (·.1),
        ¬Chunk.Overtakes (max maxWidth 1) word other := by
  have canonical := canonical_ofInsertions maxWidth insertions
  rw [canonical.pairwise_words_iff, maxWidth_ofInsertions]
  simp only [mem_map_words_ofInsertions]

theorem not_ascending_narrowTail :
    ¬(ofInsertions 4 [([97, 98, 122], ⟨"z", 1⟩),
      ([97, 98, 99, 100], ⟨"d", 2⟩)]).words.Pairwise Spelling.Before := by
  decide

/-- Words ascend where at most three bytes are read at once. -/
theorem ascending_words_of_lt_four
    {maxWidth : Nat}
    (few : maxWidth < 4)
    (insertions : List Spelling) :
    (ofInsertions maxWidth insertions).words.Pairwise Spelling.Before := by
  have canonical := canonical_ofInsertions maxWidth insertions
  rw [canonical.pairwise_words_iff, maxWidth_ofInsertions]
  intro word _ other _ overtakes
  have enough := overtakes.four_le
  omega

end Trie
end WordSwitch
