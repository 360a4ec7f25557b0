import Mathlib.Data.List.Induction
import WordSwitch.Proofs.Trie.Order
import WordSwitch.Trie.Nodes

/-!
# Finding words

A trie finds the words that it lists, and what it finds for a word is what is
listed for it.  A trie for one length that is recut lists the same words in the
same order, so it finds the same as well, however it was cut before and however
it is cut again.
-/

namespace WordSwitch

namespace Branches

variable {ι : Type}

/-- What is found for a word is listed for it. -/
theorem mem_words_of_get?
    {branches : Branches ι}
    {word : Bytes}
    {member : Enumerator}
    (found : branches.get? word = some member) :
    (word, member) ∈ branches.words := by
  induction branches generalizing word with
  | nil => cases found
  | cons chunk tag terminal below rest below_mem rest_mem =>
    rw [mem_words_cons]
    unfold get? at found
    split at found
    · next starts =>
      obtain ⟨tail, rfl⟩ := List.isPrefixOf_iff_prefix.mp starts
      rw [List.drop_left, Option.or_eq_some_iff] at found
      rcases found with here | ⟨_, inRest⟩
      · split at here
        · next ends =>
          rw [List.length_append, Nat.left_eq_add,
            List.length_eq_zero_iff] at ends
          exact Or.inl ⟨by rw [ends, List.append_nil], here⟩
        · exact Or.inr (Or.inl ⟨tail, rfl, below_mem here⟩)
      · exact Or.inr (Or.inr (rest_mem inRest))
    · exact Or.inr (Or.inr (rest_mem found))

/-- Something is found for every word that is listed. -/
theorem isSome_get?_of_mem_words
    {branches : Branches ι}
    (nonempty : branches.EveryChunk (· ≠ []))
    {word : Bytes}
    {member : Enumerator}
    (present : (word, member) ∈ branches.words) :
    (branches.get? word).isSome = true := by
  induction branches generalizing word with
  | nil => cases present
  | cons chunk tag terminal below rest below_some rest_some =>
    obtain ⟨_, belowNonempty, restNonempty⟩ := nonempty
    unfold get?
    rcases mem_words_cons.mp present with
      ⟨rfl, ends⟩ | ⟨tail, rfl, inside⟩ | inRest
    · rw [if_pos (List.isPrefixOf_iff_prefix.mpr (List.prefix_refl word)),
        if_pos rfl, ends, Option.isSome_or]
      rfl
    · have longer : ¬chunk.length = (chunk ++ tail).length := by
        rw [List.length_append, Nat.left_eq_add, List.length_eq_zero_iff]
        exact ne_nil_of_mem_words belowNonempty inside
      rw [if_pos (List.isPrefixOf_iff_prefix.mpr
          (List.prefix_append chunk tail)),
        if_neg longer, List.drop_left, Option.isSome_or,
        below_some belowNonempty inside, Bool.true_or]
    · have found := rest_some restNonempty inRest
      split
      · rw [Option.isSome_or, found, Bool.or_true]
      · exact found

/-- If no word stands for two enumerators, what is found is what is listed. -/
theorem get?_eq_some_iff
    {branches : Branches ι}
    (nonempty : branches.EveryChunk (· ≠ []))
    (functional : ∀ word first second, (word, first) ∈ branches.words →
      (word, second) ∈ branches.words → first = second)
    {word : Bytes}
    {member : Enumerator} :
    branches.get? word = some member ↔ (word, member) ∈ branches.words := by
  constructor
  · exact mem_words_of_get?
  · intro present
    obtain ⟨other, found⟩ := Option.isSome_iff_exists.mp
      (isSome_get?_of_mem_words nonempty present)
    rw [functional word member other present (mem_words_of_get? found)]
    exact found

end Branches

namespace Trie

/-- If no word stands for two enumerators, a trie finds what it lists. -/
theorem get?_eq_some_iff_of_functional
    {trie : Trie}
    (nonempty : trie.branches.EveryChunk (· ≠ []))
    (functional : ∀ word first second,
      (word, first) ∈ trie.branches.words →
      (word, second) ∈ trie.branches.words → first = second)
    {word : Bytes}
    {member : Enumerator} :
    trie.get? word = some member ↔ (word, member) ∈ trie.words := by
  rw [mem_words, get?]
  cases word with
  | nil =>
    have absent : ([], member) ∉ trie.branches.words := fun present =>
      Branches.ne_nil_of_mem_words nonempty present rfl
    simp [absent]
  | cons byte rest =>
    simpa using Branches.get?_eq_some_iff nonempty functional

/-- A trie of words of one length finds what it lists. -/
theorem OfOneLength.get?_eq_some_iff
    {length : Nat}
    {trie : Trie}
    (one : trie.OfOneLength length)
    {word : Bytes}
    {member : Enumerator} :
    trie.get? word = some member ↔ (word, member) ∈ trie.words :=
  get?_eq_some_iff_of_functional one.branches.nonempty one.branches.functional

/-- The trie that insertions of words lead to. -/
def ofInsertions (maxWidth : Nat) (insertions : List Spelling) : Trie :=
  insertions.foldl (fun trie spelling => trie.insert spelling.1 spelling.2)
    (empty maxWidth)

theorem ofInsertions_append_singleton
    (maxWidth : Nat)
    (earlier : List Spelling)
    (spelling : Spelling) :
    ofInsertions maxWidth (earlier ++ [spelling]) =
      (ofInsertions maxWidth earlier).insert spelling.1 spelling.2 := by
  rw [ofInsertions, List.foldl_append]
  rfl

@[simp] theorem maxWidth_ofInsertions
    (maxWidth : Nat)
    (insertions : List Spelling) :
    (ofInsertions maxWidth insertions).maxWidth = max maxWidth 1 := by
  induction insertions using List.reverseRecOn with
  | nil => rfl
  | append_singleton earlier spelling hypothesis =>
    rw [ofInsertions_append_singleton, maxWidth_insert, hypothesis]

theorem canonical_ofInsertions
    (maxWidth : Nat)
    (insertions : List Spelling) :
    (ofInsertions maxWidth insertions).Canonical :=
  (canonical_empty maxWidth).foldl_insert insertions

/-- Recutting the words of one length keeps the list of words and what is found
for every input, whatever the widths of the chunks were and are to be. -/
theorem recut_keeps_words
    (maxWidth : Nat)
    (insertions : List Spelling)
    {length : Nat}
    {restricted : Trie}
    (restriction :
      (ofInsertions maxWidth insertions).ofLength? length = some restricted)
    (ignoreCase : Bool)
    (recutWidth : Nat) :
    (restricted.recut ignoreCase recutWidth).words = restricted.words ∧
    ∀ input, (restricted.recut ignoreCase recutWidth).get? input =
      restricted.get? input := by
  have canonical := canonical_ofInsertions maxWidth insertions
  have one := (canonical.ofLength?_eq_some restriction).1
  have words_eq := one.words_recut
    (canonical.ordered_of_ofLength? restriction) ignoreCase recutWidth
  refine ⟨words_eq, fun input => Option.ext fun member => ?_⟩
  rw [(one.recut ignoreCase recutWidth).get?_eq_some_iff,
    one.get?_eq_some_iff, words_eq]

/-- Words of lengths four and two, one of them inserted twice. -/
def mixedInsertions : List Spelling :=
  [([97, 45, 65, 13], ⟨"First", 1⟩), ([97, 98], ⟨"Short", 2⟩),
    ([97, 66, 99, 100], ⟨"Second", 3⟩), ([97, 45, 65, 13], ⟨"Third", 4⟩)]

/-- The words of length four in chunks of two bytes. -/
def mixedRestricted : Trie :=
  ⟨3, none,
    .cons [97, 45] 2 none (.cons [65, 13] 1 (some ⟨"Third", 4⟩) .nil .nil)
      (.cons [97, 66] 4 none (.cons [99, 100] 3 (some ⟨"Second", 3⟩) .nil .nil)
        .nil)⟩

theorem recut_keeps_words_mixedInsertions :
    (ofInsertions 3 mixedInsertions).ofLength? 4 = some mixedRestricted ∧
    (mixedRestricted.recut true 8).root.chunks = [[97]] ∧
    (mixedRestricted.recut true 8).words =
      [([97, 45, 65, 13], ⟨"Third", 4⟩), ([97, 66, 99, 100], ⟨"Second", 3⟩)] ∧
    (mixedRestricted.recut true 8).get? [97, 66, 99, 100] =
      some ⟨"Second", 3⟩ := by
  have restriction : (ofInsertions 3 mixedInsertions).ofLength? 4 =
      some mixedRestricted := by decide
  obtain ⟨words_eq, get_eq⟩ :=
    recut_keeps_words 3 mixedInsertions restriction true 8
  refine ⟨restriction, by decide, ?_, ?_⟩
  · rw [words_eq]
    decide
  · rw [get_eq]
    decide

end Trie
end WordSwitch
