import WordSwitch.Proofs.Lexicon.Collision
import WordSwitch.Proofs.Recognizer.Building
import WordSwitch.Proofs.Trie.Recut

/-!
# The tries of a recognizer

The base trie of a lexicon spells the words of the lexicon in the form in which
they are inserted.  The trie for a length is well cut and spells those of that
length, and there is one for every length that some word has.
-/

namespace WordSwitch

namespace RecognizerConfig

theorem key_eq_compared (config : RecognizerConfig) (word : Bytes) :
    config.key word = Chunk.compared config.ignoreCase word :=
  rfl

@[simp] theorem length_key (config : RecognizerConfig) (word : Bytes) :
    (config.key word).length = word.length :=
  Chunk.length_compared config.ignoreCase word

theorem widthLimit_pos
    {config : RecognizerConfig}
    (readable : config.maxChunkWidth ∈ Chunk.readableWidths) :
    0 < config.widthLimit := by
  unfold widthLimit
  split
  · simp only [Chunk.readableWidths, List.mem_cons, List.not_mem_nil,
      or_false] at readable
    omega
  · exact Nat.one_pos

end RecognizerConfig

namespace Lexicon

/-! ## The base trie -/

/-- The words of a lexicon are distinct in the form in which they are
inserted. -/
def KeysDistinct (config : RecognizerConfig) (lexicon : Lexicon) : Prop :=
  (lexicon.entries.map fun entry => config.key entry.word).Nodup

theorem keysDistinct_of_collisions
    {lexicon : Lexicon}
    (once : lexicon.AssignedOnce)
    {config : RecognizerConfig}
    (apart : config.ignoreCase = true → lexicon.collisions = []) :
    lexicon.KeysDistinct config := by
  unfold KeysDistinct RecognizerConfig.key
  cases ignored : config.ignoreCase with
  | false =>
    have nodup := once.words
    rw [← map_word_entries] at nodup
    exact nodup
  | true => exact collisions_eq_nil_iff.mp (apart ignored)

/-- Inserting entries with distinct keys adds their words and keeps all
others. -/
theorem mem_words_foldl_insertEntry
    {config : RecognizerConfig}
    {entries : List Entry}
    (distinct : (entries.map fun entry => config.key entry.word).Nodup)
    {trie : Trie}
    (canonical : trie.Canonical)
    {word : Bytes}
    {member : Enumerator} :
    (word, member) ∈ (entries.foldl (insertEntry config) trie).words ↔
      (∃ entry ∈ entries,
        config.key entry.word = word ∧ entry.enumerator = member) ∨
      ((∀ entry ∈ entries, config.key entry.word ≠ word) ∧
        (word, member) ∈ trie.words) := by
  induction entries generalizing trie with
  | nil => simp
  | cons entry rest hypothesis =>
    rw [List.map_cons, List.nodup_cons] at distinct
    obtain ⟨apart, distinct⟩ := distinct
    have fresh : ∀ other ∈ rest,
        config.key other.word ≠ config.key entry.word :=
      fun other listed equal => apart (List.mem_map.mpr ⟨other, listed, equal⟩)
    refine (hypothesis distinct (canonical.insert (config.key entry.word)
      entry.enumerator)).trans ?_
    rw [canonical.mem_words_insert]
    constructor
    · rintro (⟨other, listed, found⟩ | ⟨absent, ⟨rfl, rfl⟩ | ⟨differs, old⟩⟩)
      · exact Or.inl ⟨other, List.mem_cons_of_mem entry listed, found⟩
      · exact Or.inl ⟨entry, List.mem_cons_self, rfl, rfl⟩
      · refine Or.inr ⟨?_, old⟩
        rw [List.forall_mem_cons]
        exact ⟨Ne.symm differs, absent⟩
    · rintro (⟨other, listed, rfl, rfl⟩ | ⟨absent, old⟩)
      · rcases List.mem_cons.mp listed with rfl | later
        · exact Or.inr ⟨fresh, Or.inl ⟨rfl, rfl⟩⟩
        · exact Or.inl ⟨other, later, rfl, rfl⟩
      · rw [List.forall_mem_cons] at absent
        exact Or.inr ⟨absent.2, Or.inr ⟨Ne.symm absent.1, old⟩⟩

theorem canonical_baseTrie (lexicon : Lexicon) (config : RecognizerConfig) :
    (lexicon.baseTrie config).Canonical := by
  have canonical := (Trie.canonical_empty config.widthLimit).foldl_insert
    (lexicon.entries.map fun entry =>
      (config.key entry.word, entry.enumerator))
  rw [List.foldl_map] at canonical
  exact canonical

/-- The base trie spells the words of the lexicon in the form in which they are
inserted. -/
theorem mem_words_baseTrie
    {lexicon : Lexicon}
    {config : RecognizerConfig}
    (distinct : lexicon.KeysDistinct config)
    {word : Bytes}
    {member : Enumerator} :
    (word, member) ∈ (lexicon.baseTrie config).words ↔
      ∃ entry ∈ lexicon.entries,
        config.key entry.word = word ∧ entry.enumerator = member := by
  rw [baseTrie,
    mem_words_foldl_insertEntry distinct (Trie.canonical_empty _)]
  simp [Trie.mem_words, Trie.empty]

theorem noUpper_foldl_insertEntry
    {config : RecognizerConfig}
    (ignored : config.ignoreCase = true)
    (entries : List Entry)
    {trie : Trie}
    (noUpper : trie.branches.EveryChunk Bytes.NoUpper) :
    (entries.foldl (insertEntry config) trie).branches.EveryChunk
      Bytes.NoUpper := by
  induction entries generalizing trie with
  | nil => exact noUpper
  | cons entry rest hypothesis =>
    refine hypothesis (Trie.everyChunk_insert noUpper _ ?_)
    intro piece listed byte inside
    refine Chunk.noUpper_compared entry.word byte ?_
    have inKey := (Chunk.mem_cut listed).2 byte inside
    rw [RecognizerConfig.key_eq_compared, ignored] at inKey
    exact inKey

theorem noUpper_baseTrie
    (lexicon : Lexicon)
    {config : RecognizerConfig}
    (ignored : config.ignoreCase = true) :
    (lexicon.baseTrie config).branches.EveryChunk Bytes.NoUpper :=
  noUpper_foldl_insertEntry ignored lexicon.entries trivial

/-! ## The tries for the lengths -/

theorem nodup_lengths (lexicon : Lexicon) : lexicon.lengths.Nodup :=
  nodup_ascending _

theorem mem_lengths {lexicon : Lexicon} {length : Nat} :
    length ∈ lexicon.lengths ↔
      ∃ entry ∈ lexicon.entries, entry.word.length = length := by
  rw [lengths, mem_ascending, entries]
  simp

theorem mem_lengthTries
    {lexicon : Lexicon}
    {config : RecognizerConfig}
    {length : Nat}
    {trie : Trie} :
    (length, trie) ∈ lexicon.lengthTries config ↔
      length ∈ lexicon.lengths ∧
      ∃ restricted, (lexicon.baseTrie config).ofLength? length =
        some restricted ∧ config.recut restricted = trie := by
  unfold lengthTries
  simp only [List.mem_filterMap, Option.map_eq_some_iff, Prod.mk.injEq]
  constructor
  · rintro ⟨length, listed, restricted, restriction, rfl, equal⟩
    exact ⟨listed, restricted, restriction, equal⟩
  · rintro ⟨listed, restricted, restriction, equal⟩
    exact ⟨length, listed, restricted, restriction, rfl, equal⟩

/-- There is a trie for every length that some word has. -/
theorem map_fst_lengthTries
    {lexicon : Lexicon}
    {config : RecognizerConfig}
    (distinct : lexicon.KeysDistinct config) :
    (lexicon.lengthTries config).map (·.1) = lexicon.lengths := by
  have restricts : ∀ length ∈ lexicon.lengths,
      ((lexicon.baseTrie config).ofLength? length).map (fun _ => length) =
        some length := by
    intro length listed
    obtain ⟨entry, member, length_eq⟩ := mem_lengths.mp listed
    have present := (mem_words_baseTrie distinct).mpr
      ⟨entry, member, rfl, rfl⟩
    obtain ⟨restricted, restriction⟩ :=
      (canonical_baseTrie lexicon config).exists_ofLength?_iff.mpr
        ⟨_, _, present, config.length_key entry.word⟩
    rw [← length_eq, restriction, Option.map_some]
  unfold lengthTries
  rw [List.map_filterMap]
  simp only [Option.map_map, Function.comp_def]
  rw [List.filterMap_congr restricts, List.filterMap_some]

section

variable
  {lexicon : Lexicon}
  {config : RecognizerConfig}
  {length : Nat}
  {trie : Trie}

/-- The trie for a length is well cut. -/
theorem wellCut_of_mem_lengthTries
    (readable : config.maxChunkWidth ∈ Chunk.readableWidths)
    (listed : (length, trie) ∈ lexicon.lengthTries config) :
    trie.WellCut config.ignoreCase config.widthLimit length := by
  obtain ⟨_, restricted, restriction, rfl⟩ := mem_lengthTries.mp listed
  have canonical := canonical_baseTrie lexicon config
  refine Trie.wellCut_recut (RecognizerConfig.widthLimit_pos readable)
    (canonical.ofLength?_eq_some restriction).1 ?_
  intro ignored
  exact Trie.everyChunk_ofLength? (noUpper_baseTrie lexicon ignored) restriction

/-- The trie for a length spells the words of that length in the form in which
they are inserted. -/
theorem mem_words_of_mem_lengthTries
    (distinct : lexicon.KeysDistinct config)
    (listed : (length, trie) ∈ lexicon.lengthTries config)
    {word : Bytes}
    {member : Enumerator} :
    (word, member) ∈ trie.words ↔
      word.length = length ∧ ∃ entry ∈ lexicon.entries,
        config.key entry.word = word ∧ entry.enumerator = member := by
  obtain ⟨_, restricted, restriction, rfl⟩ := mem_lengthTries.mp listed
  obtain ⟨one, words_iff⟩ :=
    (canonical_baseTrie lexicon config).ofLength?_eq_some restriction
  rw [RecognizerConfig.recut, Trie.mem_words_recut one, words_iff,
    mem_words_baseTrie distinct, and_comm]

end

/-! ## Built recognizers -/

/-- What a recognizer that was built holds. -/
structure Builds
    (lexicon : Lexicon)
    (config : RecognizerConfig)
    (recognizer : Recognizer) :
    Prop where
  ignoreCase_eq : recognizer.ignoreCase = config.ignoreCase
  maxChunkWidth_eq : recognizer.maxChunkWidth = config.widthLimit
  fallback_eq : recognizer.fallback = lexicon.fallback
  lengths_eq : recognizer.lengths = lexicon.lengths
  wellCut : ∀ length trie, (length, trie) ∈ recognizer.tries →
    trie.WellCut config.ignoreCase config.widthLimit length
  mem_words : ∀ length trie, (length, trie) ∈ recognizer.tries →
    ∀ word member, (word, member) ∈ trie.words ↔
      word.length = length ∧ ∃ entry ∈ lexicon.entries,
        config.key entry.word = word ∧ entry.enumerator = member

theorem AssignedOnce.keysDistinct
    {lexicon : Lexicon}
    (once : lexicon.AssignedOnce)
    {config : RecognizerConfig}
    {recognizer : Recognizer}
    (built : lexicon.recognizer config = .ok recognizer) :
    lexicon.KeysDistinct config :=
  keysDistinct_of_collisions once (recognizer_eq_ok_iff.mp built).2.1

theorem AssignedOnce.builds
    {lexicon : Lexicon}
    (once : lexicon.AssignedOnce)
    {config : RecognizerConfig}
    {recognizer : Recognizer}
    (built : lexicon.recognizer config = .ok recognizer) :
    lexicon.Builds config recognizer := by
  have distinct := once.keysDistinct built
  obtain ⟨readable, _, rfl⟩ := recognizer_eq_ok_iff.mp built
  exact ⟨rfl, rfl, rfl, map_fst_lengthTries distinct,
    fun _ _ => wellCut_of_mem_lengthTries readable,
    fun _ _ listed _ _ => mem_words_of_mem_lengthTries distinct listed⟩

/-- The words of a trie have the length that it is kept under. -/
theorem Builds.length_of_mem_words
    {lexicon : Lexicon}
    {config : RecognizerConfig}
    {recognizer : Recognizer}
    (builds : lexicon.Builds config recognizer) :
    ∀ pair ∈ recognizer.tries, ∀ spelling ∈ pair.2.words,
      spelling.1.length = pair.1 := by
  intro pair listed spelling present
  exact ((builds.mem_words pair.1 pair.2 listed spelling.1 spelling.2).mp
    present).1

/-- There is one trie for each length. -/
theorem Builds.nodup_keys
    {lexicon : Lexicon}
    {config : RecognizerConfig}
    {recognizer : Recognizer}
    (builds : lexicon.Builds config recognizer) :
    (recognizer.tries.map (·.1)).Nodup := by
  have keys_eq := builds.lengths_eq
  unfold Recognizer.lengths at keys_eq
  rw [keys_eq]
  exact lexicon.nodup_lengths

/-- There is a trie for the length of every word. -/
theorem Builds.exists_trie
    {lexicon : Lexicon}
    {config : RecognizerConfig}
    {recognizer : Recognizer}
    (builds : lexicon.Builds config recognizer)
    {entry : Entry}
    (listed : entry ∈ lexicon.entries) :
    ∃ trie, (entry.word.length, trie) ∈ recognizer.tries := by
  have known : entry.word.length ∈ recognizer.lengths := by
    rw [builds.lengths_eq]
    exact mem_lengths.mpr ⟨entry, listed, rfl⟩
  obtain ⟨⟨length, trie⟩, inTries, rfl⟩ := List.mem_map.mp known
  exact ⟨trie, inTries⟩

end Lexicon
end WordSwitch
