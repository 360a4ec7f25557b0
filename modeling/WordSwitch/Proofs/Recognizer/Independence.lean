import WordSwitch.Proofs.Recognizer.Tries
import WordSwitch.Proofs.Trie.Paths

/-!
# What a trie depends on

The trie for a length depends on the words of that length alone, in the form in
which they are inserted, and on what they stand for.  The order in which they
are declared, the case in which they are spelled when it is ignored, and the
words of other lengths leave it as it is, the numbers of its nodes included.
-/

namespace WordSwitch
namespace Lexicon

/-- The words of a length in the form in which they are inserted, with what
they stand for. -/
def keyedWords
    (lexicon : Lexicon)
    (config : RecognizerConfig)
    (length : Nat) :
    List Spelling :=
  (lexicon.entries.filter (·.word.length == length)).map fun entry =>
    (config.key entry.word, entry.enumerator)

theorem mem_keyedWords
    {lexicon : Lexicon}
    {config : RecognizerConfig}
    {length : Nat}
    {word : Bytes}
    {member : Enumerator} :
    (word, member) ∈ lexicon.keyedWords config length ↔
      word.length = length ∧ ∃ entry ∈ lexicon.entries,
        config.key entry.word = word ∧ entry.enumerator = member := by
  unfold keyedWords
  simp only [List.mem_map, List.mem_filter, beq_iff_eq, Prod.mk.injEq]
  constructor
  · rintro ⟨entry, ⟨listed, length_eq⟩, rfl, rfl⟩
    exact ⟨(config.length_key entry.word).trans length_eq, entry, listed, rfl,
      rfl⟩
  · rintro ⟨length_eq, entry, listed, rfl, rfl⟩
    exact ⟨entry, ⟨listed, (config.length_key entry.word).symm.trans length_eq⟩,
      rfl, rfl⟩

@[simp] theorem maxWidth_foldl_insertEntry
    (config : RecognizerConfig)
    (entries : List Entry)
    (trie : Trie) :
    (entries.foldl (insertEntry config) trie).maxWidth = trie.maxWidth := by
  induction entries generalizing trie with
  | nil => rfl
  | cons entry rest hypothesis =>
    rw [List.foldl_cons, hypothesis]
    exact trie.maxWidth_insert (config.key entry.word) entry.enumerator

@[simp] theorem maxWidth_baseTrie
    (lexicon : Lexicon)
    (config : RecognizerConfig) :
    (lexicon.baseTrie config).maxWidth = max config.widthLimit 1 :=
  maxWidth_foldl_insertEntry config lexicon.entries (.empty config.widthLimit)

/-- The trie for a length is the base trie restricted to it and recut, whether
or not some word has that length. -/
theorem findIn?_lengthTries
    {lexicon : Lexicon}
    {config : RecognizerConfig}
    (distinct : lexicon.KeysDistinct config)
    (length : Nat) :
    findIn? length (lexicon.lengthTries config) =
      ((lexicon.baseTrie config).ofLength? length).map config.recut := by
  have nodup : ((lexicon.lengthTries config).map (·.1)).Nodup := by
    rw [map_fst_lengthTries distinct]
    exact lexicon.nodup_lengths
  refine Option.ext fun trie => ?_
  rw [Option.map_eq_some_iff]
  constructor
  · intro found
    exact (mem_lengthTries.mp (OrderedMap.mem_of_findIn? found)).2
  · rintro ⟨restricted, restriction, equal⟩
    obtain ⟨word, member, present, length_eq⟩ :=
      (canonical_baseTrie lexicon config).exists_ofLength?_iff.mp
        ⟨restricted, restriction⟩
    obtain ⟨entry, listed, rfl, _⟩ := (mem_words_baseTrie distinct).mp present
    have known : length ∈ lexicon.lengths :=
      mem_lengths.mpr
        ⟨entry, listed, (config.length_key entry.word).symm.trans length_eq⟩
    exact OrderedMap.findIn?_of_mem nodup
      (mem_lengthTries.mpr ⟨known, restricted, restriction, equal⟩)

/-- Two recognizers that are built the same way have the same trie for a length
if they recognize the same words of that length. -/
theorem trie_eq_of_keyedWords
    (first second : List Declaration)
    {config : RecognizerConfig}
    {firstRecognizer secondRecognizer : Recognizer}
    (firstBuilt : (after first).recognizer config = .ok firstRecognizer)
    (secondBuilt : (after second).recognizer config = .ok secondRecognizer)
    {length : Nat}
    (same : ∀ spelling,
      spelling ∈ (after first).keyedWords config length ↔
        spelling ∈ (after second).keyedWords config length) :
    findIn? length firstRecognizer.tries =
      findIn? length secondRecognizer.tries := by
  have firstDistinct := (assignedOnce_after first).keysDistinct firstBuilt
  have secondDistinct := (assignedOnce_after second).keysDistinct secondBuilt
  obtain ⟨_, _, rfl⟩ := recognizer_eq_ok_iff.mp firstBuilt
  obtain ⟨_, _, rfl⟩ := recognizer_eq_ok_iff.mp secondBuilt
  have restricted_eq : ((after first).baseTrie config).ofLength? length =
      ((after second).baseTrie config).ofLength? length := by
    refine (canonical_baseTrie _ config).ofLength?_congr
      (canonical_baseTrie _ config) (by simp) ?_
    intro word member length_eq
    have keyed_iff := same (word, member)
    rw [mem_keyedWords, mem_keyedWords] at keyed_iff
    rw [mem_words_baseTrie firstDistinct, mem_words_baseTrie secondDistinct]
    simpa [length_eq] using keyed_iff
  rw [findIn?_lengthTries firstDistinct, findIn?_lengthTries secondDistinct,
    restricted_eq]

/-- Two words of one length. -/
def declaredAlone : List Declaration :=
  [.entry [65, 45, 98] "First" (some 3), .entry [97, 98, 67] "Second" none]

/-- The same two words in another order and case, among others. -/
def declaredAmongOthers : List Declaration :=
  [.entry [65] "Shorter" none, .entry [65, 66, 99] "Second" (some 4),
    .entry [97, 98, 99, 100] "Longer" none, .fallback none 9,
    .entry [97, 45, 66] "First" (some 3)]

theorem trie_eq_of_keyedWords_declaredAmongOthers :
    ∃ firstRecognizer secondRecognizer,
      (after declaredAlone).recognizer ⟨true, true, 8⟩ =
        .ok firstRecognizer ∧
      (after declaredAmongOthers).recognizer ⟨true, true, 8⟩ =
        .ok secondRecognizer ∧
      firstRecognizer.lengths = [3] ∧
      secondRecognizer.lengths = [1, 3, 4] ∧
      findIn? 3 firstRecognizer.tries = findIn? 3 secondRecognizer.tries := by
  let config : RecognizerConfig := ⟨true, true, 8⟩
  have firstBuilt : (after declaredAlone).recognizer config = .ok
      ⟨true, 8, (after declaredAlone).lengthTries config,
        (after declaredAlone).fallback⟩ := rfl
  have secondBuilt : (after declaredAmongOthers).recognizer config = .ok
      ⟨true, 8, (after declaredAmongOthers).lengthTries config,
        (after declaredAmongOthers).fallback⟩ := rfl
  have reordered : ((after declaredAlone).keyedWords config 3).Perm
      ((after declaredAmongOthers).keyedWords config 3) := by decide
  refine ⟨_, _, firstBuilt, secondBuilt, by decide, by decide, ?_⟩
  exact trie_eq_of_keyedWords declaredAlone declaredAmongOthers firstBuilt
    secondBuilt fun _ => reordered.mem_iff

end Lexicon
end WordSwitch
