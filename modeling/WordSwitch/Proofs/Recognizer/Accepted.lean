import Mathlib.Data.List.Shortlex
import WordSwitch.Proofs.Recognizer.Tries
import WordSwitch.Proofs.Trie.Order
import WordSwitch.Recognizer.Report

/-!
# The words that are accepted

A recognizer accepts the words of its lexicon, each of them once, in the form in
which it is inserted.  They are listed by length, since the tries are, and in
ascending order among those of one length, since every trie lists its words so.
None is missing, because no word takes the place of another in the base trie.
-/

namespace WordSwitch

namespace Spelling

/-- A spelling is listed before another if its word is shorter, or as long and
smaller. -/
def ListedBefore (first second : Spelling) : Prop :=
  List.Shortlex (· < ·) first.1 second.1

instance : Std.Irrefl ListedBefore :=
  ⟨fun spelling => Std.Irrefl.irrefl (r := List.Shortlex (· < ·)) spelling.1⟩

end Spelling

namespace Trie

/-- Insertion replaces what is listed for the inserted word. -/
theorem Canonical.replaced?_eq_some_iff
    {trie : Trie}
    (canonical : trie.Canonical)
    {word : Bytes}
    {member : Enumerator} :
    trie.replaced? word = some member ↔ (word, member) ∈ trie.words := by
  rw [canonical.mem_words_iff, replaced?]
  cases Chunk.cut trie.maxWidth word with
  | nil => rfl
  | cons chunk path => rfl

end Trie

namespace Lexicon

/-! ## No word is replaced -/

/-- Inserting entries with distinct keys replaces nothing, if the trie spells
none of the keys. -/
theorem shadowReportsFrom_eq_nil
    {config : RecognizerConfig}
    {entries : List Entry}
    (distinct : (entries.map fun entry => config.key entry.word).Nodup)
    {trie : Trie}
    (canonical : trie.Canonical)
    (fresh : ∀ entry ∈ entries, ∀ member,
      (config.key entry.word, member) ∉ trie.words) :
    shadowReportsFrom config trie entries = [] := by
  induction entries generalizing trie with
  | nil => rfl
  | cons entry rest hypothesis =>
    rw [List.map_cons, List.nodup_cons] at distinct
    obtain ⟨apart, distinct⟩ := distinct
    have nothing : trie.replaced? (config.key entry.word) = none := by
      rw [Option.eq_none_iff_forall_ne_some]
      intro member found
      exact fresh entry List.mem_cons_self member
        (canonical.replaced?_eq_some_iff.mp found)
    have later : shadowReportsFrom config (insertEntry config trie entry) rest =
        [] := by
      refine hypothesis distinct (canonical.insert _ _) ?_
      intro other listed member present
      rcases canonical.mem_words_insert.mp present with ⟨equal, _⟩ | ⟨_, old⟩
      · exact apart (List.mem_map.mpr ⟨other, listed, equal⟩)
      · exact fresh other (List.mem_cons_of_mem entry listed) member old
    rw [shadowReportsFrom, nothing]
    exact later

theorem KeysDistinct.shadowReports_eq_nil
    {lexicon : Lexicon}
    {config : RecognizerConfig}
    (distinct : lexicon.KeysDistinct config) :
    lexicon.shadowReports config = [] := by
  refine shadowReportsFrom_eq_nil distinct (Trie.canonical_empty _) ?_
  intro entry _ member present
  simp [Trie.mem_words, Trie.empty] at present

/-! ## The list of words -/

/-- The trie for a length lists its words in ascending order. -/
theorem pairwise_words_of_mem_lengthTries
    {lexicon : Lexicon}
    {config : RecognizerConfig}
    {length : Nat}
    {trie : Trie}
    (listed : (length, trie) ∈ lexicon.lengthTries config) :
    trie.words.Pairwise Spelling.Before := by
  obtain ⟨_, restricted, restriction, rfl⟩ := mem_lengthTries.mp listed
  have one :=
    ((canonical_baseTrie lexicon config).ofLength?_eq_some restriction).1
  exact Trie.pairwise_words
    (one.recut config.ignoreCase config.widthLimit).branches.nonempty
    (one.ordered_recut config.ignoreCase config.widthLimit)

/-- A recognizer accepts the words of the lexicon in the form in which they are
inserted. -/
theorem Builds.mem_acceptedWords
    {lexicon : Lexicon}
    {config : RecognizerConfig}
    {recognizer : Recognizer}
    (builds : lexicon.Builds config recognizer)
    {word : Bytes}
    {member : Enumerator} :
    (word, member) ∈ recognizer.acceptedWords ↔
      ∃ entry ∈ lexicon.entries,
        config.key entry.word = word ∧ entry.enumerator = member := by
  unfold Recognizer.acceptedWords
  rw [List.mem_flatMap]
  constructor
  · rintro ⟨⟨length, trie⟩, listed, present⟩
    exact ((builds.mem_words length trie listed word member).mp present).2
  · rintro ⟨entry, listed, rfl, rfl⟩
    obtain ⟨trie, inTries⟩ := builds.exists_trie listed
    refine ⟨(entry.word.length, trie), inTries, ?_⟩
    exact (builds.mem_words _ trie inTries _ _).mpr
      ⟨config.length_key entry.word, entry, listed, rfl, rfl⟩

theorem Builds.pairwise_lengths
    {lexicon : Lexicon}
    {config : RecognizerConfig}
    {recognizer : Recognizer}
    (builds : lexicon.Builds config recognizer) :
    recognizer.lengths.Pairwise (· < ·) := by
  rw [builds.lengths_eq]
  exact pairwise_ascending _

/-- Words are listed by length, and in ascending order within a length. -/
theorem Builds.pairwise_acceptedWords
    {lexicon : Lexicon}
    {config : RecognizerConfig}
    {recognizer : Recognizer}
    (builds : lexicon.Builds config recognizer)
    (ascend : ∀ length trie, (length, trie) ∈ recognizer.tries →
      trie.words.Pairwise Spelling.Before) :
    recognizer.acceptedWords.Pairwise Spelling.ListedBefore := by
  have lengthsAscend : recognizer.tries.Pairwise fun first second =>
      first.1 < second.1 :=
    List.pairwise_map.mp builds.pairwise_lengths
  have length_eq := builds.length_of_mem_words
  unfold Recognizer.acceptedWords
  rw [List.pairwise_flatMap]
  constructor
  · intro pair listed
    refine (ascend pair.1 pair.2 listed).imp_of_mem ?_
    intro first second first_mem second_mem before
    refine List.Shortlex.of_lex ?_ before
    rw [length_eq pair listed first first_mem,
      length_eq pair listed second second_mem]
  · refine lengthsAscend.imp_of_mem ?_
    intro earlier later earlier_mem later_mem shorter
      first first_mem second second_mem
    refine List.Shortlex.of_length_lt ?_
    rw [length_eq earlier earlier_mem first first_mem,
      length_eq later later_mem second second_mem]
    exact shorter

/-- A recognizer accepts every word of the lexicon once, in the form in which it
is inserted and with what it stands for, the words listed by length and in
ascending order.  No word replaces another on the way, and every length has its
trie. -/
theorem acceptedWords_after
    (history : List Declaration)
    {config : RecognizerConfig}
    {recognizer : Recognizer}
    (built : (after history).recognizer config = .ok recognizer) :
    recognizer.acceptedWords.Perm ((after history).entries.map fun entry =>
      (config.key entry.word, entry.enumerator)) ∧
    recognizer.acceptedWords.Pairwise Spelling.ListedBefore ∧
    recognizer.acceptedWords.length = (after history).size ∧
    (after history).shadowReports config = [] ∧
    recognizer.lengths = (after history).lengths := by
  have once := assignedOnce_after history
  have distinct := once.keysDistinct built
  have builds := once.builds built
  have sorted : recognizer.acceptedWords.Pairwise Spelling.ListedBefore := by
    refine builds.pairwise_acceptedWords ?_
    obtain ⟨_, _, rfl⟩ := recognizer_eq_ok_iff.mp built
    exact fun _ _ => pairwise_words_of_mem_lengthTries
  have permuted : recognizer.acceptedWords.Perm
      ((after history).entries.map fun entry =>
        (config.key entry.word, entry.enumerator)) := by
    have entriesNodup : ((after history).entries.map fun entry =>
        (config.key entry.word, entry.enumerator)).Nodup := by
      refine List.Nodup.of_map Prod.fst ?_
      rw [List.map_map]
      exact distinct
    rw [List.perm_ext_iff_of_nodup sorted.nodup entriesNodup]
    rintro ⟨word, member⟩
    rw [builds.mem_acceptedWords]
    simp
  refine ⟨permuted, sorted, ?_, distinct.shadowReports_eq_nil,
    builds.lengths_eq⟩
  rw [permuted.length_eq, List.length_map, entries, List.length_map, size]

/-- Words of two lengths whose order of declaration is not the order in which
they are listed. -/
def outOfOrder : List Declaration :=
  [.entry [98, 65, 97] "First" (some 3), .entry [90] "Second" none,
    .entry [66, 45, 97] "Third" none, .entry [98, 65, 97] "Fourth" (some 9)]

theorem acceptedWords_after_outOfOrder :
    ∃ recognizer,
      (after outOfOrder).recognizer ⟨true, true, 8⟩ = .ok recognizer ∧
      recognizer.acceptedWords =
        [([122], ⟨"Second", 4⟩), ([98, 45, 97], ⟨"Third", 5⟩),
          ([98, 97, 97], ⟨"Fourth", 9⟩)] ∧
      recognizer.acceptedWords.length = (after outOfOrder).size ∧
      recognizer.lengths = (after outOfOrder).lengths := by
  have built : (after outOfOrder).recognizer ⟨true, true, 8⟩ = .ok
      ⟨true, 8, (after outOfOrder).lengthTries ⟨true, true, 8⟩,
        (after outOfOrder).fallback⟩ := rfl
  obtain ⟨_, _, length_eq, _, lengths_eq⟩ :=
    acceptedWords_after outOfOrder built
  exact ⟨_, built, by decide, length_eq, lengths_eq⟩

end Lexicon
end WordSwitch
