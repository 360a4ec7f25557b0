import WordSwitch.Proofs.Outline.Reading
import WordSwitch.Proofs.Recognizer.Accepted
import WordSwitch.Proofs.WordList.Identifiers

/-!
# Outlines are faithful

The outline of a recognizer that is built from a word list can be decoded: it
says what the fallback is, and for each length in ascending order which words of
that length are accepted and what they stand for.  Nothing else of a recognizer
is in its outline, so two of them with the same outline accept the same words.
-/

namespace WordSwitch
namespace Listing

/-! ## Reading all lines -/

theorem splitOn_text
    {lines : Lines}
    (single : ∀ line ∈ lines, '\n' ∉ line.toList) :
    (Lines.text lines).toList.splitOn '\n' =
      lines.map String.toList ++ [[]] := by
  induction lines with
  | nil => rfl
  | cons line rest hypothesis =>
    obtain ⟨lineFree, restFree⟩ := List.forall_mem_cons.mp single
    rw [Lines.toList_text_cons,
      List.splitOn_append_cons_self_of_not_mem lineFree, hypothesis restFree]
    rfl

theorem newline_not_mem_of_reads
    {lines : Lines}
    {items : List Item}
    (reads : List.Forall₂ Reads lines items) :
    ∀ line ∈ lines, '\n' ∉ line.toList := by
  induction reads with
  | nil => simp
  | cons first _ hypothesis =>
    exact List.forall_mem_cons.mpr ⟨first.1, hypothesis⟩

theorem mapM_item?_of_reads
    {lines : Lines}
    {items : List Item}
    (reads : List.Forall₂ Reads lines items) :
    (lines.map String.toList ++ [[]]).mapM item? =
      some (items ++ [.blank]) := by
  induction reads with
  | nil => rfl
  | cons first _ hypothesis =>
    rw [List.map_cons, List.cons_append, List.mapM_cons, first.2, hypothesis]
    rfl

/-! ## Sections -/

theorem headed_rows (rows : List Row) (rest : List Item) :
    headed (rows.map .row ++ rest) =
      (rows ++ (headed rest).1, (headed rest).2) := by
  induction rows with
  | nil => rfl
  | cons row others hypothesis =>
    rw [List.map_cons, List.cons_append, headed, hypothesis]
    rfl

/-- What the lines under the heading for one length say, and the heading. -/
def listedSection (length : Nat) (trie : Trie) : List Item :=
  .blank :: .heading length :: trie.listedRows.map .row

/-- The rows under each heading are those of its trie. -/
theorem headed_listedSections (tries : List (Nat × Trie)) :
    headed (tries.flatMap (fun (length, trie) => listedSection length trie) ++
        [.blank]) =
      ([], tries.map fun (length, trie) => (length, trie.listedRows)) := by
  induction tries with
  | nil => rfl
  | cons pair rest hypothesis =>
    obtain ⟨length, trie⟩ := pair
    simp only [List.flatMap_cons, listedSection, List.cons_append,
      List.append_assoc, headed, List.map_cons] at hypothesis ⊢
    rw [headed_rows, hypothesis, List.append_nil]

/-- The lines under the heading for one length say what they are written
for. -/
theorem forall₂_reads_outlineSection
    {trie : Trie}
    (identifiers : ∀ spelling ∈ trie.words,
      Label.isIdentifier spelling.2.label = true)
    (length : Nat) :
    List.Forall₂ Reads (Recognizer.outlineSection length trie)
      (listedSection length trie) := by
  have rows : List.Forall₂ Reads
      ((trie.branches.outlineRows []).map OutlineRow.text)
      (((trie.branches.outlineRows []).map OutlineRow.listed).map .row) := by
    rw [List.map_map, List.forall₂_map_left_iff, List.forall₂_map_right_iff,
      List.forall₂_same]
    intro row drawn
    refine reads_row fun enumerator carried => ?_
    obtain ⟨word, spelled⟩ :=
      Branches.exists_word_of_mem_outlineRows drawn carried
    exact identifiers (word, enumerator) (List.mem_append_right _ spelled)
  refine .cons reads_blank (.cons (reads_heading length) ?_)
  unfold Trie.listedRows
  rw [List.map_append]
  refine List.rel_append ?_ rows
  cases terminal : trie.terminal with
  | none => exact .nil
  | some enumerator =>
    refine .cons (reads_root (identifiers ([], enumerator) ?_)) .nil
    unfold Trie.words
    rw [terminal]
    exact List.mem_append_left _ List.mem_cons_self

theorem forall₂_reads_outlineSections
    {tries : List (Nat × Trie)}
    (identifiers : ∀ pair ∈ tries, ∀ spelling ∈ pair.2.words,
      Label.isIdentifier spelling.2.label = true) :
    List.Forall₂ Reads
      (tries.flatMap fun (length, trie) =>
        Recognizer.outlineSection length trie)
      (tries.flatMap fun (length, trie) => listedSection length trie) := by
  induction tries with
  | nil => exact .nil
  | cons pair rest hypothesis =>
    obtain ⟨first, others⟩ := List.forall_mem_cons.mp identifiers
    exact List.rel_append (forall₂_reads_outlineSection first pair.1)
      (hypothesis others)

/-- The words that the rows under each heading spell are those of its trie. -/
theorem map_words_listedRows (tries : List (Nat × Trie)) :
    (tries.map fun (length, trie) => (length, trie.listedRows)).map
        (fun (length, rows) => (length, words [] rows)) =
      tries.map fun (length, trie) => (length, trie.words) := by
  rw [List.map_map]
  refine List.map_congr_left fun pair _ => ?_
  exact congrArg (pair.1, ·) pair.2.words_listedRows

theorem fallback?_line
    {enumerator : Enumerator}
    (identifier : Label.isIdentifier enumerator.label = true) :
    fallback? ("fallback" ++
      OutlineRow.terminalText (some enumerator)).toList = some enumerator := by
  rw [String.toList_append, fallback?,
    List.dropPrefix?_append_of_beq _ (by simp), Option.bind_some,
    enumerator?_terminalText identifier]

end Listing

namespace Recognizer

/-- All labels of a recognizer are identifiers. -/
structure Identified (recognizer : Recognizer) : Prop where
  fallback : Label.isIdentifier recognizer.fallback.label = true
  words : ∀ pair ∈ recognizer.tries, ∀ spelling ∈ pair.2.words,
    Label.isIdentifier spelling.2.label = true

/-- The outline of a recognizer lists its fallback and the words of each
trie. -/
theorem Identified.decode?_outline
    {recognizer : Recognizer}
    (identified : recognizer.Identified) :
    Listing.decode? recognizer.outline.definitions =
      some ⟨recognizer.fallback,
        recognizer.tries.map fun (length, trie) => (length, trie.words)⟩ := by
  have reads := Listing.forall₂_reads_outlineSections identified.words
  have single : ∀ line ∈ recognizer.outlineLines, '\n' ∉ line.toList :=
    List.forall_mem_cons.mpr
      ⟨Listing.newline_not_mem_marked (by decide) identified.fallback,
        Listing.newline_not_mem_of_reads reads⟩
  have items := Listing.mapM_item?_of_reads reads
  have headed := Listing.headed_listedSections recognizer.tries
  unfold outline Listing.decode?
  rw [Listing.splitOn_text single, outlineLines, List.map_cons, List.cons_append,
    Listing.ofLines?, Listing.fallback?_line identified.fallback, items]
  simp only [headed, Listing.map_words_listedRows]

/-- The words under a heading are all accepted words of its length. -/
theorem filter_flatMap_words
    {tries : List (Nat × Trie)}
    (distinct : (tries.map (·.1)).Nodup)
    (length_eq : ∀ pair ∈ tries, ∀ spelling ∈ pair.2.words,
      spelling.1.length = pair.1)
    {pair : Nat × Trie}
    (inTries : pair ∈ tries) :
    (tries.flatMap (·.2.words)).filter (·.1.length = pair.1) =
      pair.2.words := by
  induction tries with
  | nil => cases inTries
  | cons first rest hypothesis =>
    rw [List.map_cons, List.nodup_cons] at distinct
    obtain ⟨apart, distinct⟩ := distinct
    obtain ⟨first_eq, rest_eq⟩ := List.forall_mem_cons.mp length_eq
    rw [List.flatMap_cons, List.filter_append]
    rcases List.mem_cons.mp inTries with rfl | inRest
    · have all : pair.2.words.filter (·.1.length = pair.1) = pair.2.words :=
        List.filter_eq_self.mpr fun spelling present =>
          decide_eq_true (first_eq spelling present)
      have others :
          (rest.flatMap (·.2.words)).filter (·.1.length = pair.1) = [] := by
        rw [List.filter_eq_nil_iff]
        intro spelling present same
        obtain ⟨other, listed, spelled⟩ := List.mem_flatMap.mp present
        refine apart (List.mem_map.mpr ⟨other, listed, ?_⟩)
        rw [← rest_eq other listed spelling spelled]
        exact of_decide_eq_true same
      rw [all, others, List.append_nil]
    · have different : first.1 ≠ pair.1 := by
        intro same
        exact apart (List.mem_map.mpr ⟨pair, inRest, same.symm⟩)
      have none : first.2.words.filter (·.1.length = pair.1) = [] := by
        rw [List.filter_eq_nil_iff]
        intro spelling present same
        rw [first_eq spelling present] at same
        exact different (of_decide_eq_true same)
      rw [none, List.nil_append]
      exact hypothesis distinct rest_eq inRest

end Recognizer

namespace Lexicon

theorem Builds.map_words_eq
    {lexicon : Lexicon}
    {config : RecognizerConfig}
    {recognizer : Recognizer}
    (builds : lexicon.Builds config recognizer) :
    (recognizer.tries.map fun (length, trie) => (length, trie.words)) =
      recognizer.lengths.map fun length =>
        (length, recognizer.acceptedWords.filter (·.1.length = length)) := by
  unfold Recognizer.lengths Recognizer.acceptedWords
  rw [List.map_map]
  refine List.map_congr_left fun pair listed => ?_
  exact congrArg (pair.1, ·) (Recognizer.filter_flatMap_words
    builds.nodup_keys builds.length_of_mem_words listed).symm

theorem Identified.recognizer
    {lexicon : Lexicon}
    (identified : lexicon.Identified)
    {config : RecognizerConfig}
    {recognizer : Recognizer}
    (builds : lexicon.Builds config recognizer) :
    recognizer.Identified := by
  refine ⟨builds.fallback_eq ▸ identified.fallback, ?_⟩
  intro pair listed spelling present
  obtain ⟨_, entry, inEntries, _, carried⟩ :=
    (builds.mem_words pair.1 pair.2 listed spelling.1 spelling.2).mp present
  obtain ⟨assigned, inWords, rfl⟩ := List.mem_map.mp inEntries
  rw [← carried]
  exact identified.words assigned inWords

/-- A recognizer that is built from a word list holds what it was built from,
and all its labels are identifiers. -/
theorem builds_of_ofSource
    {source : Source}
    {lexicon : Lexicon}
    (read : ofSource source = .ok lexicon)
    {config : RecognizerConfig}
    {recognizer : Recognizer}
    (built : lexicon.recognizer config = .ok recognizer) :
    lexicon.Builds config recognizer ∧ recognizer.Identified := by
  obtain ⟨declarations, reached, identifiers⟩ :=
    exists_declarations_of_ofSource read
  have once : lexicon.AssignedOnce :=
    after_of_ofDeclarations? reached ▸ assignedOnce_after declarations
  have builds := once.builds built
  exact ⟨builds,
    (identified_of_ofDeclarations? reached identifiers).recognizer builds⟩

/-- The outline of a recognizer that is built from a word list can be decoded to
its fallback and, under a heading for each length in ascending order, the
accepted words of that length with what they stand for; every accepted word is
under one of the headings.  Recognizers with the same outline therefore have the
same fallback and accept the same words. -/
theorem decode?_outline_acceptedWords
    {source : Source}
    {lexicon : Lexicon}
    (read : ofSource source = .ok lexicon)
    {config : RecognizerConfig}
    {recognizer : Recognizer}
    (built : lexicon.recognizer config = .ok recognizer) :
    Listing.decode? recognizer.outline.definitions =
      some ⟨recognizer.fallback, recognizer.lengths.map fun length =>
        (length, recognizer.acceptedWords.filter (·.1.length = length))⟩ ∧
    recognizer.lengths.Pairwise (· < ·) ∧
    (∀ spelling ∈ recognizer.acceptedWords,
      spelling.1.length ∈ recognizer.lengths) ∧
    ∀ (otherSource : Source) (otherLexicon : Lexicon)
      (otherConfig : RecognizerConfig) (other : Recognizer),
      ofSource otherSource = .ok otherLexicon →
      otherLexicon.recognizer otherConfig = .ok other →
      other.outline.definitions = recognizer.outline.definitions →
        other.fallback = recognizer.fallback ∧
          other.acceptedWords = recognizer.acceptedWords := by
  obtain ⟨builds, identified⟩ := builds_of_ofSource read built
  have decoded := identified.decode?_outline
  refine ⟨builds.map_words_eq ▸ decoded, builds.pairwise_lengths, ?_, ?_⟩
  · intro spelling present
    obtain ⟨pair, listed, spelled⟩ := List.mem_flatMap.mp present
    rw [builds.length_of_mem_words pair listed spelling spelled]
    exact List.mem_map.mpr ⟨pair, listed, rfl⟩
  · intro otherSource otherLexicon otherConfig other otherRead otherBuilt same
    obtain ⟨_, otherIdentified⟩ := builds_of_ofSource otherRead otherBuilt
    have listings := otherIdentified.decode?_outline
    rw [same, decoded] at listings
    obtain ⟨fallback_eq, words_eq⟩ :=
      Listing.mk.inj (Option.some.inj listings)
    refine ⟨fallback_eq.symm, ?_⟩
    have words := congrArg (List.flatMap Prod.snd) words_eq
    rw [List.flatMap_map, List.flatMap_map] at words
    exact words.symm

/-- Words with quotes, backslashes and a control, and a fallback that declares
its value only. -/
def quotes : Bytes :=
  [81, 126, 97, 34, 10, 66, 126, 7, 92, 32, 61, 32, 45, 51, 10,
    87, 126, 65, 98, 92, 34, 10, 61, 53]

/-- What is read from them. -/
def quotesLexicon : Lexicon :=
  ⟨⟨[([97, 34], "Q"), ([7, 92], "B"), ([65, 98, 92, 34], "W")]⟩,
    ⟨[("Q", 0), ("B", -3), ("W", 1), ("Unknown", 5)]⟩, ⟨"Unknown", 5⟩,
    ⟨some 6⟩⟩

theorem decode?_outline_acceptedWords_quotes :
    ofSource (.ofBytes quotes) = .ok quotesLexicon ∧
    ∃ recognizer, quotesLexicon.recognizer ⟨true, true, 8⟩ = .ok recognizer ∧
      Listing.decode? recognizer.outline.definitions =
        some ⟨⟨"Unknown", 5⟩,
          [(2, [([7, 92], ⟨"B", -3⟩), ([97, 34], ⟨"Q", 0⟩)]),
            (4, [([97, 98, 92, 34], ⟨"W", 1⟩)])]⟩ := by
  have read : ofSource (.ofBytes quotes) = .ok quotesLexicon := rfl
  have built : quotesLexicon.recognizer ⟨true, true, 8⟩ = .ok
      ⟨true, 8, quotesLexicon.lengthTries ⟨true, true, 8⟩, ⟨"Unknown", 5⟩⟩ :=
    rfl
  refine ⟨read, _, built, ?_⟩
  rw [(decode?_outline_acceptedWords read built).1]
  decide

end Lexicon
end WordSwitch
