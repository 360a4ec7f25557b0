import WordSwitch.Proofs.Recognizer.Tries
import WordSwitch.Recognizer.Lookup

/-!
# What is looked up

Following an input through a well cut trie finds the word that the input spells
in the form in which words are inserted.  So a recognizer answers with the
entry whose word the input is, with or without regard to case, and with the
fallback if there is none.
-/

namespace WordSwitch

namespace Branches

variable {ι : Type}

/-- A node reads an input that is long enough. -/
theorem read?_eq_some
    {branches : Branches ι}
    {width : Nat}
    (nonempty : branches.chunks ≠ [])
    (oneWidth : ∀ chunk ∈ branches.chunks, chunk.length = width)
    {input : Bytes}
    (within : width ≤ input.length) :
    branches.read? input = some (input.take width, input.drop width) := by
  rw [read?, Chunk.commonWidth?_eq_some nonempty oneWidth]
  exact if_pos within

/-- A node does not read an input that is too short. -/
theorem read?_eq_none
    {branches : Branches ι}
    {width : Nat}
    (nonempty : branches.chunks ≠ [])
    (oneWidth : ∀ chunk ∈ branches.chunks, chunk.length = width)
    {input : Bytes}
    (short : input.length < width) :
    branches.read? input = none := by
  rw [read?, Chunk.commonWidth?_eq_some nonempty oneWidth]
  exact if_neg (Nat.not_le_of_lt short)

theorem chunks_ne_nil
    {branches : Branches ι}
    (edges : branches.isNil = false) :
    branches.chunks ≠ [] := by
  cases branches with
  | nil => cases edges
  | cons chunk tag terminal below rest => simp [chunks]

/-- A word that begins with a chunk is not below edges of the same width with
other chunks. -/
theorem not_mem_words_of_prefix
    {branches : Branches ι}
    {chunk word : Bytes}
    (absent : chunk ∉ branches.chunks)
    (width_eq : ∀ other ∈ branches.chunks, other.length = chunk.length)
    (begins : chunk <+: word)
    (member : Enumerator) :
    (word, member) ∉ branches.words := by
  intro present
  obtain ⟨other, listed, starts⟩ := exists_chunk_prefix present
  have same_length := width_eq other listed
  have same : chunk = other := (List.prefix_of_prefix_length_le begins starts
    (Nat.le_of_eq same_length.symm)).eq_of_length same_length.symm
  exact absent (same ▸ listed)

/-- What a node reads and what is left make up the input, so that following
them finds a word that the input spells if following finds what it is given.  No
word is shorter than the edges of the node. -/
theorem read?_follow_eq_some_iff
    {ignoreCase : Bool}
    {branches : Branches ι}
    {width : Nat}
    (nonempty : branches.chunks ≠ [])
    (oneWidth : ∀ chunk ∈ branches.chunks, chunk.length = width)
    {comparison : Chunk.Comparison}
    {member : Enumerator}
    (follows : ∀ read remaining : Bytes, read.length = width →
      (branches.follow ignoreCase comparison read remaining = some member ↔
        (Chunk.compared ignoreCase (read ++ remaining), member) ∈
          branches.words))
    (input : Bytes) :
    ((branches.read? input).bind fun next =>
        branches.follow ignoreCase comparison next.1 next.2) = some member ↔
      (Chunk.compared ignoreCase input, member) ∈ branches.words := by
  by_cases within : width ≤ input.length
  · rw [read?_eq_some nonempty oneWidth within]
    rw [Option.bind_some, follows _ _ (List.length_take_of_le within),
      List.take_append_drop]
  · rw [read?_eq_none nonempty oneWidth (Nat.lt_of_not_le within),
      Option.bind_none]
    refine ⟨nofun, fun present => ?_⟩
    obtain ⟨chunk, listed, begins⟩ := exists_chunk_prefix present
    have bound := begins.length_le
    rw [oneWidth chunk listed, Chunk.length_compared] at bound
    exact absurd bound within

/-- Following what is read of an input and what is left of it finds the word
that they spell. -/
theorem follow_eq_some_iff
    {ignoreCase : Bool}
    {limit : Nat}
    {branches : Branches ι}
    (leaves : branches.WordsAtLeaves)
    (nodes : branches.EveryNode (Chunk.Aligned ignoreCase limit))
    {comparison : Chunk.Comparison}
    (accepted : ∀ chunk ∈ branches.chunks, ∀ read,
      comparison.accepts read chunk = true ↔
        Chunk.compared ignoreCase read = chunk)
    (distinct : branches.chunks.Nodup)
    {read : Bytes}
    (oneWidth : ∀ chunk ∈ branches.chunks, chunk.length = read.length)
    (remaining : Bytes)
    {member : Enumerator} :
    branches.follow ignoreCase comparison read remaining = some member ↔
      (Chunk.compared ignoreCase (read ++ remaining), member) ∈
        branches.words := by
  induction branches generalizing comparison read remaining with
  | nil => simp [follow]
  | cons chunk tag terminal below rest below_iff rest_iff =>
    obtain ⟨leaf, belowLeaves, restLeaves⟩ := leaves
    obtain ⟨aligned, belowNodes, restNodes⟩ := nodes
    obtain ⟨absent, restDistinct⟩ := List.nodup_cons.mp distinct
    have chunk_width : chunk.length = read.length :=
      oneWidth chunk List.mem_cons_self
    have accepts_iff := accepted chunk List.mem_cons_self read
    have later := rest_iff restLeaves restNodes
      (fun other listed => accepted other (List.mem_cons_of_mem chunk listed))
      restDistinct
      (fun other listed => oneWidth other (List.mem_cons_of_mem chunk listed))
      remaining
    rw [follow, Chunk.compared_append]
    split
    · next accepts =>
      rw [mem_words_cons]
      have begins := accepts_iff.mp accepts
      have noneLater : (chunk ++ Chunk.compared ignoreCase remaining, member) ∉
          rest.words :=
        not_mem_words_of_prefix absent
          (fun other listed => (oneWidth other
            (List.mem_cons_of_mem chunk listed)).trans chunk_width.symm)
          (List.prefix_append _ _) member
      rw [begins]
      cases belowNil : below.isNil with
      | true =>
        rw [isNil_eq_true_iff] at belowNil
        subst belowNil
        cases remaining with
        | nil =>
          have nothing : Chunk.compared ignoreCase [] = [] := by simp
          rw [nothing, List.append_nil] at noneLater ⊢
          simp [noneLater]
        | cons byte remaining => simp [noneLater]
      | false =>
        rw [belowNil] at leaf
        have no_terminal := Option.isSome_eq_false_iff.mp leaf.symm
        rw [Option.isNone_iff_eq_none] at no_terminal
        obtain ⟨width, _, width_eq⟩ := aligned.oneWidth
        have deeper := read?_follow_eq_some_iff (chunks_ne_nil belowNil)
          width_eq
          (fun next left next_length => below_iff belowLeaves belowNodes
            (fun _ listed _ => aligned.accepts_iff listed) aligned.distinct
            (fun other listed => (width_eq other listed).trans
              next_length.symm) left)
          remaining
        simp only [Bool.false_eq_true, if_false, deeper, no_terminal]
        simp [noneLater]
    · next rejects =>
      rw [accepts_iff] at rejects
      have compared_length : (Chunk.compared ignoreCase read).length =
          chunk.length := by
        rw [Chunk.length_compared, chunk_width]
      rw [later, Chunk.compared_append,
        mem_words_cons_of_ne compared_length rejects]

end Branches

namespace Trie

/-- A well cut trie recognizes the words that it spells. -/
theorem WellCut.recognize?_eq_some_iff
    {ignoreCase : Bool}
    {limit length : Nat}
    {trie : Trie}
    (cut : trie.WellCut ignoreCase limit length)
    {input : Bytes}
    {member : Enumerator} :
    trie.recognize? ignoreCase input = some member ↔
      (Chunk.compared ignoreCase input, member) ∈ trie.words := by
  have leaf := cut.one.leaf
  rw [mem_words, recognize?]
  cases branchesNil : trie.branches.isNil with
  | true =>
    rw [Branches.isNil_eq_true_iff] at branchesNil
    cases input with
    | nil => simp [branchesNil]
    | cons byte rest => simp [branchesNil]
  | false =>
    rw [branchesNil] at leaf
    have no_terminal := Option.isSome_eq_false_iff.mp leaf.symm
    rw [Option.isNone_iff_eq_none] at no_terminal
    rw [no_terminal]
    simp only [Bool.false_eq_true, if_false, reduceCtorEq, and_false, false_or]
    obtain ⟨width, _, width_eq⟩ := cut.aligned.oneWidth
    exact Branches.read?_follow_eq_some_iff (Branches.chunks_ne_nil branchesNil)
      width_eq
      (fun _ remaining read_length => Branches.follow_eq_some_iff
        cut.one.branches.leaves cut.nodes
        (fun _ listed _ => cut.aligned.accepts_iff listed) cut.aligned.distinct
        (fun chunk listed => (width_eq chunk listed).trans read_length.symm)
        remaining)
      input

end Trie

/-- An input is the word of an entry, without regard to case if case is
ignored. -/
def Entry.Matches
    (config : RecognizerConfig)
    (input : Bytes)
    (entry : Entry) :
    Prop :=
  config.key entry.word = config.key input

namespace Lexicon

/-- At most one entry matches an input. -/
theorem KeysDistinct.entry_eq
    {lexicon : Lexicon}
    {config : RecognizerConfig}
    (distinct : lexicon.KeysDistinct config)
    {input : Bytes}
    {first second : Entry}
    (first_mem : first ∈ lexicon.entries)
    (second_mem : second ∈ lexicon.entries)
    (first_matches : first.Matches config input)
    (second_matches : second.Matches config input) :
    first = second :=
  List.inj_on_of_nodup_map distinct first_mem second_mem
    (first_matches.trans second_matches.symm)

/-- A recognizer finds the entries that match. -/
theorem Builds.lookupWord?_eq_some_iff
    {lexicon : Lexicon}
    {config : RecognizerConfig}
    {recognizer : Recognizer}
    (builds : lexicon.Builds config recognizer)
    {input : Bytes}
    {member : Enumerator} :
    recognizer.lookupWord? input = some member ↔
      ∃ entry ∈ lexicon.entries,
        entry.Matches config input ∧ entry.enumerator = member := by
  unfold Recognizer.lookupWord?
  cases found : findIn? input.length recognizer.tries with
  | some trie =>
    have listed := OrderedMap.mem_of_findIn? found
    rw [builds.ignoreCase_eq]
    refine (builds.wellCut _ trie listed).recognize?_eq_some_iff.trans ?_
    rw [builds.mem_words _ trie listed, Chunk.length_compared]
    exact and_iff_right rfl
  | none =>
    constructor
    · intro impossible
      cases impossible
    · rintro ⟨entry, listed, same, _⟩
      have length_eq : entry.word.length = input.length := by
        rw [← config.length_key entry.word, same, config.length_key]
      obtain ⟨trie, inTries⟩ := builds.exists_trie listed
      rw [length_eq] at inTries
      rw [OrderedMap.findIn?_of_mem builds.nodup_keys inTries] at found
      cases found

/-- A recognizer finds exactly the entries that match an input, of which there
is at most one.  It answers any other input with the fallback. -/
theorem lookup_after
    (history : List Declaration)
    {config : RecognizerConfig}
    {recognizer : Recognizer}
    (built : (after history).recognizer config = .ok recognizer)
    (input : Bytes) :
    (∀ member, recognizer.lookupWord? input = some member ↔
      ∃ entry ∈ (after history).entries,
        entry.Matches config input ∧ entry.enumerator = member) ∧
    (∀ first ∈ (after history).entries, ∀ second ∈ (after history).entries,
      first.Matches config input → second.Matches config input →
        first = second) ∧
    ((∀ entry ∈ (after history).entries, ¬entry.Matches config input) →
      recognizer.lookupWord? input = none ∧
      recognizer.lookup input = (after history).fallback) := by
  have once := assignedOnce_after history
  have builds := once.builds built
  refine ⟨fun _ => builds.lookupWord?_eq_some_iff, ?_, ?_⟩
  · intro first first_mem second second_mem
    exact (once.keysDistinct built).entry_eq first_mem second_mem
  · intro unmatched
    have missing : recognizer.lookupWord? input = none := by
      rw [Option.eq_none_iff_forall_ne_some]
      intro member found
      obtain ⟨entry, listed, same, _⟩ := builds.lookupWord?_eq_some_iff.mp found
      exact unmatched entry listed same
    refine ⟨missing, ?_⟩
    rw [Recognizer.lookup, missing, Option.getD_none, builds.fallback_eq]

/-- Two words with a hyphen, onto which the fold sends a carriage return. -/
def hyphenated : List Declaration :=
  [.entry [65, 45, 98] "First" (some 3), .entry [97, 45] "Second" none,
    .fallback (some "Other") 7]

theorem lookup_after_hyphenated :
    ∃ recognizer,
      (after hyphenated).recognizer ⟨true, true, 8⟩ = .ok recognizer ∧
      recognizer.lookupWord? [97, 45, 66] = some ⟨"First", 3⟩ ∧
      recognizer.lookup [97, 13, 66] = ⟨"Other", 7⟩ := by
  let config : RecognizerConfig := ⟨true, true, 8⟩
  have built : (after hyphenated).recognizer config = .ok
      ⟨true, 8, (after hyphenated).lengthTries config,
        (after hyphenated).fallback⟩ := rfl
  have atWord := lookup_after hyphenated built [97, 45, 66]
  have elsewhere := lookup_after hyphenated built [97, 13, 66]
  refine ⟨_, built, ?_, ?_⟩
  · refine (atWord.1 ⟨"First", 3⟩).mpr ⟨⟨[65, 45, 98], "First", 3⟩, ?_⟩
    exact ⟨by decide, by unfold Entry.Matches; decide, rfl⟩
  · have unmatched : ∀ entry ∈ (after hyphenated).entries,
        ¬entry.Matches config [97, 13, 66] := by
      unfold Entry.Matches
      decide
    exact (elsewhere.2.2 unmatched).2

end Lexicon
end WordSwitch
