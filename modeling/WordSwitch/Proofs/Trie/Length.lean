import Mathlib.Logic.Basic
import Mathlib.Tactic.SplitIfs
import WordSwitch.Proofs.Trie.Insertion
import WordSwitch.Trie.Length

/-!
# The words of one length

Restricting a trie to a length keeps exactly the words of that length, and
every node that is left leads to one of them: words end at its leaves and
nowhere else.
-/

namespace WordSwitch

namespace Branches

variable {ι : Type}

/-- What is left of one edge when its words are restricted to a length, given
what is left of the branches below it. -/
def keptEdge
    (chunk : Bytes)
    (terminal : Option Enumerator)
    (kept : Branches Unit)
    (length : Nat) :
    Branches Unit :=
  if chunk.length = length then
    match terminal with
    | some enumerator => cons chunk () (some enumerator) nil nil
    | none => nil
  else if chunk.length < length then
    match kept with
    | nil => nil
    | kept => cons chunk () none kept nil
  else nil

theorem ofLength_cons
    (chunk : Bytes)
    (tag : ι)
    (terminal : Option Enumerator)
    (below rest : Branches ι)
    (length : Nat) :
    (cons chunk tag terminal below rest).ofLength length =
      (keptEdge chunk terminal (below.ofLength (length - chunk.length))
        length).append (rest.ofLength length) := by
  unfold keptEdge
  cases terminal <;>
    cases kept : below.ofLength (length - chunk.length) <;>
    simp only [ofLength, kept] <;>
    split_ifs <;>
    rfl

theorem EveryChunk.ofLength
    {property : Bytes → Prop}
    {branches : Branches ι}
    (every : branches.EveryChunk property)
    (length : Nat) :
    (branches.ofLength length).EveryChunk property := by
  induction branches generalizing length with
  | nil => trivial
  | cons chunk tag terminal below rest below_every rest_every =>
    obtain ⟨holds, inBelow, inRest⟩ := every
    rw [ofLength_cons, everyChunk_append]
    refine ⟨?_, rest_every inRest length⟩
    have keptEvery := below_every inBelow (length - chunk.length)
    unfold keptEdge
    split
    · cases terminal with
      | none => trivial
      | some enumerator => exact ⟨holds, trivial, trivial⟩
    · split
      · cases kept : below.ofLength (length - chunk.length) with
        | nil => trivial
        | cons _ _ _ _ _ => exact ⟨holds, kept ▸ keptEvery, trivial⟩
      · trivial

theorem wordsAtLeaves_ofLength
    (branches : Branches ι)
    (length : Nat) :
    (branches.ofLength length).WordsAtLeaves := by
  induction branches generalizing length with
  | nil => trivial
  | cons chunk tag terminal below rest below_leaves rest_leaves =>
    rw [ofLength_cons, wordsAtLeaves_append]
    refine ⟨?_, rest_leaves length⟩
    have keptLeaves := below_leaves (length - chunk.length)
    unfold keptEdge
    split
    · cases terminal with
      | none => trivial
      | some enumerator => exact ⟨rfl, trivial, trivial⟩
    · split
      · cases kept : below.ofLength (length - chunk.length) with
        | nil => trivial
        | cons _ _ _ _ _ => exact ⟨rfl, kept ▸ keptLeaves, trivial⟩
      · trivial

theorem filter_ownSpelling
    (chunk : Bytes)
    (terminal : Option Enumerator)
    (length : Nat) :
    (ownSpelling chunk terminal).filter (·.1.length == length) =
      if chunk.length = length then ownSpelling chunk terminal else [] := by
  cases terminal with
  | none => simp [ownSpelling]
  | some enumerator =>
    split
    · next equal => simp [ownSpelling, equal]
    · next different => simp [ownSpelling, different]

theorem filter_map_extend
    (chunk : Bytes)
    (spellings : List Spelling)
    (length : Nat) :
    (spellings.map (extend chunk)).filter (·.1.length == length) =
      if chunk.length ≤ length then
        (spellings.filter (·.1.length == length - chunk.length)).map
          (extend chunk)
      else [] := by
  rw [List.filter_map]
  split
  · next within =>
    congr 2
    funext spelling
    rw [Function.comp_apply, extend, List.length_append, Bool.eq_iff_iff,
      beq_iff_eq, beq_iff_eq]
    omega
  · next longer =>
    rw [List.map_eq_nil_iff, List.filter_eq_nil_iff]
    intro spelling _
    rw [Function.comp_apply, extend, List.length_append, beq_iff_eq]
    omega

theorem words_keptEdge
    (chunk : Bytes)
    (terminal : Option Enumerator)
    (kept : Branches Unit)
    (length : Nat) :
    (keptEdge chunk terminal kept length).words =
      if chunk.length = length then ownSpelling chunk terminal
      else if chunk.length < length then kept.words.map (extend chunk)
      else [] := by
  unfold keptEdge
  split
  · cases terminal <;> simp [ownSpelling]
  · split
    · cases kept <;> simp [ownSpelling]
    · rfl

/-- Restricting branches to a length keeps the words of that length, in their
order. -/
theorem words_ofLength
    {branches : Branches ι}
    (nonempty : branches.EveryChunk (· ≠ []))
    (length : Nat) :
    (branches.ofLength length).words =
      branches.words.filter (·.1.length == length) := by
  induction branches generalizing length with
  | nil => rfl
  | cons chunk tag terminal below rest below_words rest_words =>
    obtain ⟨_, belowNonempty, restNonempty⟩ := nonempty
    rw [ofLength_cons, words_append, words_keptEdge, words_cons,
      List.filter_append, List.filter_append, filter_ownSpelling,
      filter_map_extend, rest_words restNonempty, below_words belowNonempty]
    congr 1
    by_cases whole : chunk.length = length
    · -- A word that goes on below the edge is longer.
      have none_below : below.words.filter
          (·.1.length == length - chunk.length) = [] := by
        rw [List.filter_eq_nil_iff]
        rintro ⟨tail, member⟩ inside
        have positive := List.length_pos_iff.mpr
          (ne_nil_of_mem_words belowNonempty inside)
        rw [beq_iff_eq]
        dsimp only
        omega
      rw [if_pos whole, if_pos whole, none_below, List.map_nil, ite_self,
        List.append_nil]
    · have within : chunk.length ≤ length ↔ chunk.length < length := by omega
      simp only [if_neg whole, within, List.nil_append]

/-- Restricting branches to a length keeps the words of that length. -/
theorem mem_words_ofLength
    {branches : Branches ι}
    (nonempty : branches.EveryChunk (· ≠ []))
    {length : Nat}
    {word : Bytes}
    {member : Enumerator} :
    (word, member) ∈ (branches.ofLength length).words ↔
      (word, member) ∈ branches.words ∧ word.length = length := by
  rw [words_ofLength nonempty, List.mem_filter, beq_iff_eq]

/-- Branches that spell words of one length: none of their chunks is empty,
words end at their leaves and nowhere else, and no word stands for two
enumerators. -/
structure OfOneLength (length : Nat) (branches : Branches ι) : Prop where
  nonempty : branches.EveryChunk (· ≠ [])
  leaves : branches.WordsAtLeaves
  length_eq : ∀ word member, (word, member) ∈ branches.words →
    word.length = length
  functional : ∀ word first second, (word, first) ∈ branches.words →
    (word, second) ∈ branches.words → first = second

theorem OfOneLength.below
    {length : Nat}
    {chunk : Bytes}
    {tag : ι}
    {terminal : Option Enumerator}
    {below rest : Branches ι}
    (one : (cons chunk tag terminal below rest).OfOneLength length) :
    below.OfOneLength (length - chunk.length) := by
  obtain ⟨nonempty, leaves, length_eq, functional⟩ := one
  have extended : ∀ tail member, (tail, member) ∈ below.words →
      (chunk ++ tail, member) ∈ (cons chunk tag terminal below rest).words :=
    fun tail member inside =>
      mem_words_cons.mpr (Or.inr (Or.inl ⟨tail, rfl, inside⟩))
  refine ⟨nonempty.2.1, leaves.2.1, ?_, ?_⟩
  · intro tail member inside
    have total := length_eq _ member (extended tail member inside)
    rw [List.length_append] at total
    omega
  · intro tail first second first_mem second_mem
    exact functional _ first second (extended tail first first_mem)
      (extended tail second second_mem)

theorem OfOneLength.rest
    {length : Nat}
    {chunk : Bytes}
    {tag : ι}
    {terminal : Option Enumerator}
    {below rest : Branches ι}
    (one : (cons chunk tag terminal below rest).OfOneLength length) :
    rest.OfOneLength length := by
  obtain ⟨nonempty, leaves, length_eq, functional⟩ := one
  have later : ∀ word member, (word, member) ∈ rest.words →
      (word, member) ∈ (cons chunk tag terminal below rest).words :=
    fun word member inRest => mem_words_cons.mpr (Or.inr (Or.inr inRest))
  refine ⟨nonempty.2.2, leaves.2.2, ?_, ?_⟩
  · exact fun word member inRest => length_eq word member
      (later word member inRest)
  · exact fun word first second first_mem second_mem =>
      functional word first second (later word first first_mem)
        (later word second second_mem)

/-- No chunk is longer than the words. -/
theorem OfOneLength.length_le
    {length : Nat}
    {branches : Branches ι}
    (one : branches.OfOneLength length)
    {chunk : Bytes}
    (listed : chunk ∈ branches.chunks) :
    chunk.length ≤ length := by
  obtain ⟨tail, member, present⟩ :=
    one.leaves.exists_word_of_mem_chunks listed
  have total := one.length_eq _ member present
  rw [List.length_append] at total
  omega

@[simp] theorem ofOneLength_shape
    {length : Nat}
    {branches : Branches ι} :
    branches.shape.OfOneLength length ↔ branches.OfOneLength length := by
  constructor
  · rintro ⟨nonempty, leaves, length_eq, functional⟩
    rw [everyChunk_shape] at nonempty
    rw [wordsAtLeaves_shape] at leaves
    rw [words_shape] at length_eq functional
    exact ⟨nonempty, leaves, length_eq, functional⟩
  · rintro ⟨nonempty, leaves, length_eq, functional⟩
    refine ⟨everyChunk_shape.mpr nonempty, wordsAtLeaves_shape.mpr leaves,
      ?_, ?_⟩
    · rw [words_shape]
      exact length_eq
    · rw [words_shape]
      exact functional

end Branches

namespace Trie

/-- A trie that spells words of one length: words end at its leaves and
nowhere else, the root included. -/
structure OfOneLength (length : Nat) (trie : Trie) : Prop where
  branches : trie.branches.OfOneLength length
  leaf : trie.branches.isNil = trie.terminal.isSome
  atRoot : trie.terminal.isSome = true → length = 0

theorem mem_words
    {trie : Trie}
    {word : Bytes}
    {member : Enumerator} :
    (word, member) ∈ trie.words ↔
      (word = [] ∧ trie.terminal = some member) ∨
      (word, member) ∈ trie.branches.words := by
  rw [words, List.mem_append, Branches.mem_ownSpelling]

theorem Canonical.mem_words_of_ne_nil
    {trie : Trie}
    (canonical : trie.Canonical)
    {word : Bytes}
    {member : Enumerator}
    (present : (word, member) ∈ trie.branches.words) :
    word ≠ [] :=
  Branches.ne_nil_of_mem_words canonical.nonempty present

/-- A restricted trie keeps what ends at the root, or else it keeps branches,
numbered again. -/
theorem ofLength?_eq_some_iff
    {trie restricted : Trie}
    {length : Nat} :
    trie.ofLength? length = some restricted ↔
      (length = 0 ∧ ∃ enumerator, trie.terminal = some enumerator ∧
        restricted = ⟨trie.maxWidth, some enumerator, .nil⟩) ∨
      (length ≠ 0 ∧ trie.branches.ofLength length ≠ .nil ∧
        restricted = ⟨trie.maxWidth, none,
          (trie.branches.ofLength length).numberUpward 1⟩) := by
  unfold ofLength?
  by_cases empty : length = 0
  · simp [empty, @eq_comm _ restricted]
  · cases left : trie.branches.ofLength length <;>
      simp [empty, @eq_comm _ restricted]

/-- Restricting a trie to a length keeps the words of that length, in their
order. -/
theorem Canonical.words_ofLength?
    {trie restricted : Trie}
    (canonical : trie.Canonical)
    {length : Nat}
    (restriction : trie.ofLength? length = some restricted) :
    restricted.words = trie.words.filter (·.1.length == length) := by
  have filtered : trie.words.filter (·.1.length == length) =
      (if 0 = length then Branches.ownSpelling [] trie.terminal else []) ++
        (trie.branches.ofLength length).words := by
    rw [words, List.filter_append, Branches.filter_ownSpelling,
      List.length_nil, ← Branches.words_ofLength canonical.nonempty]
  rw [filtered, words]
  obtain ⟨rfl, enumerator, terminal_eq, rfl⟩ | ⟨further, _, rfl⟩ :=
    ofLength?_eq_some_iff.mp restriction
  · have none_longer : (trie.branches.ofLength 0).words = [] := by
      refine List.eq_nil_iff_forall_not_mem.mpr fun spelling inside => ?_
      obtain ⟨present, length_eq⟩ :=
        (Branches.mem_words_ofLength canonical.nonempty).mp inside
      exact canonical.mem_words_of_ne_nil present
        (List.length_eq_zero_iff.mp length_eq)
    rw [none_longer, if_pos rfl, terminal_eq, Branches.words_nil]
  · rw [Branches.words_numberUpward, if_neg (Ne.symm further)]
    rfl

/-- Restricting a trie to a length gives a trie of the words of that length,
if there are any. -/
theorem Canonical.ofLength?_eq_some
    {trie restricted : Trie}
    (canonical : trie.Canonical)
    {length : Nat}
    (restriction : trie.ofLength? length = some restricted) :
    restricted.OfOneLength length ∧
      ∀ word member, (word, member) ∈ restricted.words ↔
        (word, member) ∈ trie.words ∧ word.length = length := by
  refine ⟨?_, fun word member => by
    rw [canonical.words_ofLength? restriction, List.mem_filter, beq_iff_eq]⟩
  obtain ⟨rfl, enumerator, _, rfl⟩ | ⟨_, edges, rfl⟩ :=
    ofLength?_eq_some_iff.mp restriction
  · exact ⟨⟨trivial, trivial, by simp, by simp⟩, rfl, fun _ => rfl⟩
  · have kept_words : ∀ word member,
        (word, member) ∈ (trie.branches.ofLength length).words ↔
          (word, member) ∈ trie.branches.words ∧ word.length = length :=
      fun _ _ => Branches.mem_words_ofLength canonical.nonempty
    refine ⟨?_, ?_, by simp⟩
    · rw [← Branches.ofOneLength_shape, Branches.shape_numberUpward,
        Branches.shape_unit]
      refine ⟨canonical.nonempty.ofLength length,
        Branches.wordsAtLeaves_ofLength trie.branches length, ?_, ?_⟩
      · intro word member present
        exact ((kept_words word member).mp present).2
      · intro word first second first_mem second_mem
        exact canonical.words_functional
          (mem_words.mpr (Or.inr ((kept_words word first).mp first_mem).1))
          (mem_words.mpr (Or.inr ((kept_words word second).mp second_mem).1))
    · rw [← Branches.isNil_shape, Branches.shape_numberUpward,
        Branches.shape_unit, Option.isSome_none, Bool.eq_false_iff, Ne,
        Branches.isNil_eq_true_iff]
      exact edges

/-- Restricting a trie to a length fails exactly if no word has that length. -/
theorem Canonical.exists_ofLength?_iff
    {trie : Trie}
    (canonical : trie.Canonical)
    {length : Nat} :
    (∃ restricted, trie.ofLength? length = some restricted) ↔
      ∃ word member, (word, member) ∈ trie.words ∧ word.length = length := by
  constructor
  · rintro ⟨restricted, restriction⟩
    obtain ⟨shape, words_iff⟩ := canonical.ofLength?_eq_some restriction
    cases terminal_eq : restricted.terminal with
    | some member =>
      exact ⟨[], member, (words_iff [] member).mp
        (mem_words.mpr (Or.inl ⟨rfl, terminal_eq⟩))⟩
    | none =>
      have edges : restricted.branches ≠ .nil := by
        have leaf := shape.leaf
        rw [terminal_eq] at leaf
        intro none_left
        rw [none_left] at leaf
        cases leaf
      obtain ⟨word, member, inside⟩ :=
        shape.branches.leaves.exists_word edges
      exact ⟨word, member, (words_iff word member).mp
        (mem_words.mpr (Or.inr inside))⟩
  · rintro ⟨word, member, present, length_eq⟩
    simp only [ofLength?_eq_some_iff]
    rcases mem_words.mp present with ⟨rfl, terminal_eq⟩ | inside
    · exact ⟨_, .inl ⟨length_eq.symm, member, terminal_eq, rfl⟩⟩
    · have kept := (Branches.mem_words_ofLength canonical.nonempty).mpr
        ⟨inside, length_eq⟩
      refine ⟨_, .inr ⟨?_, ?_, rfl⟩⟩
      · rw [← length_eq, Ne, List.length_eq_zero_iff]
        exact canonical.mem_words_of_ne_nil inside
      · intro none_left
        rw [none_left] at kept
        cases kept

theorem everyChunk_ofLength?
    {property : Bytes → Prop}
    {trie restricted : Trie}
    (every : trie.branches.EveryChunk property)
    {length : Nat}
    (restriction : trie.ofLength? length = some restricted) :
    restricted.branches.EveryChunk property := by
  obtain ⟨_, _, _, rfl⟩ | ⟨_, _, rfl⟩ := ofLength?_eq_some_iff.mp restriction
  · trivial
  · rw [← Branches.everyChunk_shape, Branches.shape_numberUpward,
      Branches.everyChunk_shape]
    exact every.ofLength length

end Trie
end WordSwitch
