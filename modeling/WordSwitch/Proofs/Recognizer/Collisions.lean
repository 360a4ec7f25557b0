import WordSwitch.Proofs.Recognizer.Accepted

/-!
# Words that are refused together

Whether words collide is decided on the entries, while the words that would hide
one another meet in the base trie.  The two agree: a recognizer is refused for a
collision exactly if two entries have the same lowercase form and case is
ignored, and if it is built, no insertion into the base trie replaces anything.
-/

namespace WordSwitch

namespace Lexicon

/-- No report says that a word is hidden exactly if no insertion replaces
anything. -/
theorem shadowReportsFrom_eq_nil_iff
    {config : RecognizerConfig}
    {entries : List Entry}
    {trie : Trie} :
    shadowReportsFrom config trie entries = [] ↔
      ∀ before entry, before ++ [entry] <+: entries →
        (before.foldl (insertEntry config) trie).replaced?
          (config.key entry.word) = none := by
  induction entries generalizing trie with
  | nil => simp [shadowReportsFrom]
  | cons first rest hypothesis =>
    have split : shadowReportsFrom config trie (first :: rest) = [] ↔
        trie.replaced? (config.key first.word) = none ∧
        shadowReportsFrom config (insertEntry config trie first) rest = [] := by
      rw [shadowReportsFrom]
      cases trie.replaced? (config.key first.word) <;> simp
    rw [split, hypothesis]
    constructor
    · rintro ⟨nothing, later⟩ before entry begins
      cases before with
      | nil =>
        obtain ⟨rfl, _⟩ := List.cons_prefix_cons.mp begins
        exact nothing
      | cons other before =>
        obtain ⟨rfl, further⟩ := List.cons_prefix_cons.mp begins
        exact later before entry further
    · intro nothing
      refine ⟨nothing [] first ⟨rest, rfl⟩, fun before entry begins => ?_⟩
      exact nothing (first :: before) entry
        (List.cons_prefix_cons.mpr ⟨rfl, begins⟩)

theorem AssignedOnce.nodup_entries
    {lexicon : Lexicon}
    (once : lexicon.AssignedOnce) :
    lexicon.entries.Nodup := by
  refine List.Nodup.of_map Entry.word ?_
  rw [map_word_entries]
  exact once.words

/-- Some entries collide exactly if two of them have the same lowercase
form. -/
theorem AssignedOnce.collisions_ne_nil_iff
    {lexicon : Lexicon}
    (once : lexicon.AssignedOnce) :
    lexicon.collisions ≠ [] ↔
      ∃ first ∈ lexicon.entries, ∃ second ∈ lexicon.entries,
        first ≠ second ∧ Bytes.lower first.word = Bytes.lower second.word := by
  rw [Ne, collisions_eq_nil_iff,
    List.nodup_map_iff_inj_on once.nodup_entries]
  push Not
  simp only [and_comm]

/-- If a width can be read, a recognizer is refused exactly if case is ignored
and two entries have the same lowercase form.  The words that are reported are
the first one whose lowercase form is repeated and the first one that has it.
The collisions are the entries behind one that is equal to them without regard
to case, in their order, each with the first such entry.  Without them no
insertion into the base trie replaces anything. -/
theorem collisions_after
    (history : List Declaration)
    {config : RecognizerConfig}
    (valid : config.check = .ok ()) :
    let lexicon := after history
    ((∃ first second, lexicon.recognizer config =
        .error (.caseCollision first second)) ↔
      config.ignoreCase = true ∧
      ∃ first ∈ lexicon.entries, ∃ second ∈ lexicon.entries,
        first ≠ second ∧ Bytes.lower first.word = Bytes.lower second.word) ∧
    (∀ firstWord secondWord,
      lexicon.recognizer config =
          .error (.caseCollision firstWord secondWord) ↔
        config.ignoreCase = true ∧
        ∃ before first second,
          before ++ [second] <+: lexicon.entries ∧
          (before.map (Bytes.lower ·.word)).Nodup ∧
          before.find? (·.caseEqual second) = some first ∧
          first.word = firstWord ∧ second.word = secondWord) ∧
    lexicon.entries.Nodup ∧
    (lexicon.collisions.map (·.2)).Sublist lexicon.entries ∧
    (∀ first second, (first, second) ∈ lexicon.collisions ↔
      ∃ before, before ++ [second] <+: lexicon.entries ∧
        before.find? (·.caseEqual second) = some first) ∧
    ∀ recognizer, lexicon.recognizer config = .ok recognizer →
      ∀ before entry, before ++ [entry] <+: lexicon.entries →
        (before.foldl (insertEntry config) (.empty config.widthLimit)).replaced?
          (config.key entry.word) = none := by
  intro lexicon
  have once : lexicon.AssignedOnce := assignedOnce_after history
  refine ⟨?_, ?_, once.nodup_entries, map_snd_collisionsAfter_nil_sublist,
    fun _ _ => mem_collisionsAfter_nil_iff, ?_⟩
  · rw [← once.collisions_ne_nil_iff]
    simp only [recognizer_eq_caseCollision_iff valid]
    constructor
    · rintro ⟨_, _, ignored, pair, reported, _⟩
      exact ⟨ignored, fun nothing => by simp [nothing] at reported⟩
    · rintro ⟨ignored, some_collide⟩
      exact ⟨_, _, ignored, _, List.head?_eq_some_head some_collide, rfl, rfl⟩
  · intro firstWord secondWord
    rw [recognizer_eq_caseCollision_iff valid]
    refine and_congr_right fun _ => ?_
    constructor
    · rintro ⟨⟨first, second⟩, reported, spelled⟩
      obtain ⟨before, begins, distinct, found⟩ :=
        head?_collisionsAfter_nil_eq_some_iff.mp reported
      exact ⟨before, first, second, begins, distinct, found, spelled⟩
    · rintro ⟨before, first, second, begins, distinct, found, spelled⟩
      exact ⟨(first, second), head?_collisionsAfter_nil_eq_some_iff.mpr
        ⟨before, begins, distinct, found⟩, spelled⟩
  · intro recognizer built
    exact shadowReportsFrom_eq_nil_iff.mp
      (once.keysDistinct built).shadowReports_eq_nil

/-- Three words that differ only in case, around one that differs otherwise. -/
def threeAlike : List Declaration :=
  [.entry [65, 98] "First" none, .entry [97, 45] "Apart" none,
    .entry [97, 66] "Second" none, .entry [65, 66] "Third" none]

theorem collisions_after_threeAlike :
    RecognizerConfig.check ⟨true, true, 8⟩ = .ok () ∧
    (after threeAlike).recognizer ⟨true, true, 8⟩ =
      .error (.caseCollision [65, 98] [97, 66]) ∧
    (⟨[65, 98], "First", 0⟩, ⟨[65, 66], "Third", 3⟩) ∈
      (after threeAlike).collisions := by
  have valid : RecognizerConfig.check ⟨true, true, 8⟩ = .ok () := rfl
  obtain ⟨_, reported_iff, _, _, collides_iff, _⟩ :=
    collisions_after threeAlike valid
  refine ⟨valid, (reported_iff _ _).mpr ⟨rfl, ?_⟩,
    (collides_iff _ _).mpr ?_⟩
  · exact ⟨[⟨[65, 98], "First", 0⟩, ⟨[97, 45], "Apart", 1⟩],
      ⟨[65, 98], "First", 0⟩, ⟨[97, 66], "Second", 2⟩, by decide⟩
  · exact ⟨[⟨[65, 98], "First", 0⟩, ⟨[97, 45], "Apart", 1⟩,
      ⟨[97, 66], "Second", 2⟩], by decide⟩

end Lexicon
end WordSwitch
