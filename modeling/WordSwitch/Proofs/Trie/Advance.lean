import Mathlib.Logic.Basic
import WordSwitch.Proofs.Chunk.Alignment
import WordSwitch.Proofs.Trie.Length
import WordSwitch.Trie.Recut

/-!
# Consuming the first bytes of edges

Recutting groups the edges of a node by their first bytes and consumes those.
The edges of a group that are left spell what is left of the words that begin
with its bytes, and the terminal on which the group lands is what the consumed
bytes stand for by themselves.
-/

namespace WordSwitch
namespace Branches

variable {ι : Type}

/-! ## The common width -/

theorem commonWidth_mem
    (cutting : Cutting)
    {branches : Branches ι}
    (edges : branches ≠ nil) :
    ∃ chunk ∈ branches.chunks, branches.commonWidth cutting =
      Chunk.safeWidth cutting.ignoreCase cutting.maxWidth chunk := by
  unfold commonWidth
  cases least : (branches.chunks.map
      (Chunk.safeWidth cutting.ignoreCase cutting.maxWidth)).min? with
  | none =>
    rw [List.min?_eq_none_iff, List.map_eq_nil_iff] at least
    cases branches with
    | nil => exact absurd rfl edges
    | cons chunk tag terminal below rest => simp [chunks] at least
  | some width =>
    obtain ⟨chunk, listed, equal⟩ :=
      List.mem_map.mp (List.min?_mem least)
    exact ⟨chunk, listed, equal.symm⟩

theorem commonWidth_le
    (cutting : Cutting)
    {branches : Branches ι}
    {chunk : Bytes}
    (listed : chunk ∈ branches.chunks) :
    branches.commonWidth cutting ≤
      Chunk.safeWidth cutting.ignoreCase cutting.maxWidth chunk := by
  unfold commonWidth
  have member := List.mem_map_of_mem
    (f := Chunk.safeWidth cutting.ignoreCase cutting.maxWidth) listed
  cases least : (branches.chunks.map
      (Chunk.safeWidth cutting.ignoreCase cutting.maxWidth)).min? with
  | none =>
    rw [List.min?_eq_none_iff] at least
    rw [least] at member
    cases member
  | some width => exact (List.min?_eq_some_iff.mp least).2 _ member

theorem readableWithin_commonWidth
    {cutting : Cutting}
    (positive : 0 < cutting.maxWidth)
    (branches : Branches ι) :
    Chunk.ReadableWithin cutting.maxWidth (branches.commonWidth cutting) := by
  cases branches with
  | nil => exact ⟨positive, 0, rfl⟩
  | cons chunk tag terminal below rest =>
    have edges : cons chunk tag terminal below rest ≠ nil := by simp
    obtain ⟨key, _, equal⟩ := commonWidth_mem cutting edges
    rw [equal]
    exact Chunk.readableWithin_safeWidth positive _ key

theorem commonWidth_le_length
    (cutting : Cutting)
    {branches : Branches ι}
    (nonempty : branches.EveryChunk (· ≠ []))
    {chunk : Bytes}
    (listed : chunk ∈ branches.chunks) :
    branches.commonWidth cutting ≤ chunk.length :=
  Nat.le_trans (commonWidth_le cutting listed)
    (Chunk.safeWidth_le_length (nonempty.of_mem_chunks listed) _ _)

/-! ## Bytes in front of chunks -/

@[simp] theorem isNil_prepend (bytes : Bytes) (branches : Branches ι) :
    (branches.prepend bytes).isNil = branches.isNil := by
  cases branches <;> rfl

theorem mem_words_prepend
    {bytes word : Bytes}
    {branches : Branches ι}
    {member : Enumerator} :
    (word, member) ∈ (branches.prepend bytes).words ↔
      ∃ tail, word = bytes ++ tail ∧ (tail, member) ∈ branches.words := by
  induction branches with
  | nil => simp [prepend]
  | cons chunk tag terminal below rest _ rest_iff =>
    rw [prepend, mem_words_cons, rest_iff]
    simp only [mem_words_cons]
    constructor
    · rintro (⟨rfl, ends⟩ | ⟨tail, rfl, inside⟩ | ⟨tail, rfl, later⟩)
      · exact ⟨chunk, rfl, Or.inl ⟨rfl, ends⟩⟩
      · exact ⟨chunk ++ tail, List.append_assoc bytes chunk tail,
          Or.inr (Or.inl ⟨tail, rfl, inside⟩)⟩
      · exact ⟨tail, rfl, Or.inr (Or.inr later)⟩
    · rintro ⟨_, rfl, ⟨rfl, ends⟩ | ⟨tail, rfl, inside⟩ | later⟩
      · exact Or.inl ⟨rfl, ends⟩
      · exact Or.inr (Or.inl
          ⟨tail, (List.append_assoc bytes chunk tail).symm, inside⟩)
      · exact Or.inr (Or.inr ⟨_, rfl, later⟩)

theorem EveryChunk.prepend
    {property : Bytes → Prop}
    {bytes : Bytes}
    (extended : ∀ chunk, property chunk → property (bytes ++ chunk))
    {branches : Branches ι}
    (every : branches.EveryChunk property) :
    (branches.prepend bytes).EveryChunk property := by
  induction branches with
  | nil => trivial
  | cons chunk tag terminal below rest _ rest_every =>
    exact ⟨extended chunk every.1, every.2.1, rest_every every.2.2⟩

theorem WordsAtLeaves.prepend
    (bytes : Bytes)
    {branches : Branches ι}
    (leaves : branches.WordsAtLeaves) :
    (branches.prepend bytes).WordsAtLeaves := by
  induction branches with
  | nil => trivial
  | cons chunk tag terminal below rest _ rest_leaves =>
    exact ⟨leaves.1, leaves.2.1, rest_leaves leaves.2.2⟩

theorem levelBound_prepend
    (bytes : Bytes)
    {branches : Branches ι}
    (edges : branches.isNil = false) :
    (branches.prepend bytes).levelBound =
      bytes.length + branches.levelBound := by
  induction branches with
  | nil => cases edges
  | cons chunk tag terminal below rest _ rest_bound =>
    rw [Branches.prepend, levelBound, levelBound, List.length_append]
    cases rest_nil : rest.isNil with
    | true =>
      rw [isNil_eq_true_iff] at rest_nil
      subst rest_nil
      simp only [Branches.prepend, levelBound]
      omega
    | false =>
      rw [rest_bound rest_nil]
      omega

/-! ## One edge -/

section

variable
  {remainder : Bytes}
  {tag : ι}
  {terminal : Option Enumerator}
  {below : Branches ι}

/-- What is left of an edge spells nothing but what is left of its words. -/
theorem of_mem_words_advanceEdge
    {word : Bytes}
    {member : Enumerator}
    (present : (word, member) ∈
      (advanceEdge remainder tag terminal below).words) :
    (remainder ≠ [] ∧ word = remainder ∧ terminal = some member) ∨
    ∃ tail, word = remainder ++ tail ∧ (tail, member) ∈ below.words := by
  unfold advanceEdge at present
  split at present
  · next used =>
    rw [List.isEmpty_iff] at used
    exact Or.inr ⟨word, by simp [used], present⟩
  · next unused =>
    rw [List.isEmpty_iff] at unused
    split at present
    · rcases mem_words_cons.mp present with
        ⟨spelled, ends⟩ | ⟨_, _, impossible⟩ | impossible
      · exact Or.inl ⟨unused, spelled, ends⟩
      · cases impossible
      · cases impossible
    · exact Or.inr (mem_words_prepend.mp present)

/-- If words end at every leaf and nowhere else, what is left of an edge spells
what is left of its words, its own only if bytes of the edge are left. -/
theorem mem_words_advanceEdge
    (leaf : below.isNil = terminal.isSome)
    {word : Bytes}
    {member : Enumerator} :
    (word, member) ∈ (advanceEdge remainder tag terminal below).words ↔
      (remainder ≠ [] ∧ word = remainder ∧ terminal = some member) ∨
      ∃ tail, word = remainder ++ tail ∧ (tail, member) ∈ below.words := by
  refine ⟨of_mem_words_advanceEdge, ?_⟩
  unfold advanceEdge
  split
  · next used =>
    rw [List.isEmpty_iff] at used
    simp [used]
  · next unused =>
    split
    · next ends =>
      rw [isNil_eq_true_iff] at ends
      subst ends
      rw [mem_words_cons]
      simp
    · next goesOn =>
      rw [Bool.not_eq_true] at goesOn
      rw [goesOn] at leaf
      have no_terminal := Option.isSome_eq_false_iff.mp leaf.symm
      rw [Option.isNone_iff_eq_none] at no_terminal
      rw [mem_words_prepend, no_terminal]
      simp

theorem EveryChunk.advanceEdge
    {property : Bytes → Prop}
    (every : below.EveryChunk property)
    (alone : remainder ≠ [] → property remainder)
    (joined : ∀ chunk, property chunk → property (remainder ++ chunk)) :
    (advanceEdge remainder tag terminal below).EveryChunk property := by
  unfold Branches.advanceEdge
  split
  · exact every
  · next unused =>
    rw [List.isEmpty_iff] at unused
    split
    · exact ⟨alone unused, trivial, trivial⟩
    · exact every.prepend joined

theorem WordsAtLeaves.advanceEdge
    (leaf : below.isNil = terminal.isSome)
    (leaves : below.WordsAtLeaves) :
    (advanceEdge remainder tag terminal below).WordsAtLeaves := by
  unfold Branches.advanceEdge
  split
  · exact leaves
  · split
    · next ends =>
      rw [ends] at leaf
      exact ⟨leaf, trivial, trivial⟩
    · exact leaves.prepend remainder

theorem levelBound_advanceEdge
    (remainder : Bytes)
    (tag : ι)
    (terminal : Option Enumerator)
    (below : Branches ι) :
    (advanceEdge remainder tag terminal below).levelBound ≤
      remainder.length + below.levelBound + 1 := by
  unfold advanceEdge
  split
  · omega
  · split
    · simp only [levelBound]
      omega
    · next goesOn =>
      rw [Bool.not_eq_true] at goesOn
      rw [levelBound_prepend remainder goesOn]
      omega

end

/-! ## The edges that begin with some bytes -/

/-- If two words begin alike, so do their beginnings. -/
theorem take_eq_of_append_eq
    {start word chunk tail : Bytes}
    (within : start.length ≤ chunk.length)
    (equal : start ++ word = chunk ++ tail) :
    chunk.take start.length = start := by
  have beginnings := congrArg (List.take start.length) equal
  rw [List.take_left, List.take_append_of_le_length within] at beginnings
  exact beginnings.symm

section

variable
  {width : Nat}
  {start : Bytes}
  {branches : Branches ι}

theorem startingWith_of_not_mem
    (absent : start ∉ branches.chunks.map (·.take width)) :
    branches.startingWith width start = nil := by
  induction branches with
  | nil => rfl
  | cons chunk tag terminal below rest _ rest_nil =>
    rw [chunks, List.map_cons, List.mem_cons, not_or] at absent
    rw [startingWith, if_neg (Ne.symm absent.1), rest_nil absent.2]

theorem append_drop_of_take_eq
    {chunk : Bytes}
    (begins : chunk.take width = start) :
    start ++ chunk.drop width = chunk := by
  rw [← begins]
  exact List.take_append_drop width chunk

/-- The edges of a group, advanced, spell nothing but what is left of the words
that begin with the bytes of the group and are longer. -/
theorem of_mem_words_group
    (nonempty : branches.EveryChunk (· ≠ []))
    {word : Bytes}
    {member : Enumerator}
    (present : (word, member) ∈
      ((branches.startingWith width start).advance width).words) :
    word ≠ [] ∧ (start ++ word, member) ∈ branches.words := by
  induction branches with
  | nil => cases present
  | cons chunk tag terminal below rest _ rest_words =>
    obtain ⟨_, belowNonempty, restNonempty⟩ := nonempty
    rw [mem_words_cons]
    have later := rest_words restNonempty
    unfold startingWith at present
    split at present
    · next begins =>
      have chunk_eq := append_drop_of_take_eq begins
      rw [advance, words_append, List.mem_append] at present
      rcases present with here | inRest
      · rcases of_mem_words_advanceEdge here with
          ⟨unused, rfl, ends⟩ | ⟨tail, rfl, inside⟩
        · exact ⟨unused, Or.inl ⟨chunk_eq, ends⟩⟩
        · have tail_ne := ne_nil_of_mem_words belowNonempty inside
          refine ⟨by simp [tail_ne], Or.inr (Or.inl ⟨tail, ?_, inside⟩)⟩
          rw [← List.append_assoc, chunk_eq]
      · exact (later inRest).imp_right fun inWords => Or.inr (Or.inr inWords)
    · exact (later present).imp_right fun inWords => Or.inr (Or.inr inWords)

/-- If words end at every leaf and nowhere else, the edges of a group, advanced,
spell what is left of all words that begin with the bytes of the group and are
longer. -/
theorem mem_words_group
    (nonempty : branches.EveryChunk (· ≠ []))
    (leaves : branches.WordsAtLeaves)
    (wide : ∀ chunk ∈ branches.chunks, width ≤ chunk.length)
    (start_length : start.length = width)
    {word : Bytes}
    {member : Enumerator} :
    (word, member) ∈
        ((branches.startingWith width start).advance width).words ↔
      word ≠ [] ∧ (start ++ word, member) ∈ branches.words := by
  refine ⟨of_mem_words_group nonempty, ?_⟩
  subst start_length
  induction branches with
  | nil => simp
  | cons chunk tag terminal below rest _ rest_mem =>
    obtain ⟨_, belowNonempty, restNonempty⟩ := nonempty
    obtain ⟨leaf, belowLeaves, restLeaves⟩ := leaves
    have within : start.length ≤ chunk.length := wide chunk List.mem_cons_self
    have later := rest_mem restNonempty restLeaves
      fun other listed => wide other (List.mem_cons_of_mem chunk listed)
    unfold startingWith
    rw [mem_words_cons]
    split
    · next begins =>
      have chunk_eq := append_drop_of_take_eq begins
      rw [advance, words_append, List.mem_append, mem_words_advanceEdge leaf]
      rintro ⟨longer, ⟨equal, ends⟩ | ⟨tail, equal, inside⟩ | inRest⟩
      · rw [← chunk_eq, List.append_cancel_left_eq] at equal
        subst equal
        exact Or.inl (Or.inl ⟨longer, rfl, ends⟩)
      · rw [← chunk_eq, List.append_assoc,
          List.append_cancel_left_eq] at equal
        exact Or.inl (Or.inr ⟨tail, equal, inside⟩)
      · exact Or.inr (later ⟨longer, inRest⟩)
    · next other =>
      rintro ⟨longer, ⟨equal, _⟩ | ⟨tail, equal, _⟩ | inRest⟩
      · rw [← List.append_nil chunk] at equal
        exact absurd (take_eq_of_append_eq within equal) other
      · exact absurd (take_eq_of_append_eq within equal) other
      · exact later ⟨longer, inRest⟩

theorem mem_words_of_landing
    (wide : ∀ chunk ∈ branches.chunks, width ≤ chunk.length)
    {member : Enumerator}
    (lands : (branches.startingWith width start).landing width =
      some member) :
    (start, member) ∈ branches.words := by
  induction branches with
  | nil => cases lands
  | cons chunk tag terminal below rest _ rest_mem =>
    have within : width ≤ chunk.length := wide chunk List.mem_cons_self
    have later := rest_mem
      fun other listed => wide other (List.mem_cons_of_mem chunk listed)
    rw [mem_words_cons]
    unfold startingWith at lands
    split at lands
    · next begins =>
      rw [landing, Option.or_eq_some_iff] at lands
      rcases lands with inRest | ⟨_, here⟩
      · exact Or.inr (Or.inr (later inRest))
      · split at here
        · next used =>
          rw [List.take_of_length_le used] at begins
          exact Or.inl ⟨begins.symm, here⟩
        · cases here
    · exact Or.inr (Or.inr (later lands))

/-- A group lands on a terminal if its bytes are a word by themselves. -/
theorem isSome_landing_of_mem_words
    (nonempty : branches.EveryChunk (· ≠ []))
    (wide : ∀ chunk ∈ branches.chunks, width ≤ chunk.length)
    (start_length : start.length = width)
    {member : Enumerator}
    (present : (start, member) ∈ branches.words) :
    ((branches.startingWith width start).landing width).isSome = true := by
  induction branches with
  | nil => cases present
  | cons chunk tag terminal below rest _ rest_some =>
    obtain ⟨_, belowNonempty, restNonempty⟩ := nonempty
    have within : width ≤ chunk.length := wide chunk List.mem_cons_self
    have later := rest_some restNonempty
      fun other listed => wide other (List.mem_cons_of_mem chunk listed)
    unfold startingWith
    rcases mem_words_cons.mp present with
      ⟨rfl, ends⟩ | ⟨tail, rfl, inside⟩ | inRest
    · rw [List.take_of_length_le (Nat.le_of_eq start_length), if_pos rfl,
        landing, if_pos (Nat.le_of_eq start_length), ends, Option.isSome_or]
      simp
    · have positive := List.length_pos_iff.mpr
        (ne_nil_of_mem_words belowNonempty inside)
      rw [List.length_append] at start_length
      omega
    · split
      · rw [landing, Option.isSome_or, later inRest, Bool.true_or]
      · exact later inRest

theorem EveryChunk.group
    {property : Bytes → Prop}
    (every : branches.EveryChunk property)
    (dropped : ∀ chunk, property chunk → chunk.drop width ≠ [] →
      property (chunk.drop width))
    (joined : ∀ chunk other, property chunk → property other →
      property (chunk.drop width ++ other)) :
    ((branches.startingWith width start).advance width).EveryChunk
      property := by
  induction branches with
  | nil => trivial
  | cons chunk tag terminal below rest _ rest_every =>
    obtain ⟨holds, inBelow, inRest⟩ := every
    unfold startingWith
    split
    · rw [advance, everyChunk_append]
      exact ⟨inBelow.advanceEdge (dropped chunk holds)
        fun other => joined chunk other holds, rest_every inRest⟩
    · exact rest_every inRest

theorem WordsAtLeaves.group (leaves : branches.WordsAtLeaves) :
    ((branches.startingWith width start).advance width).WordsAtLeaves := by
  induction branches with
  | nil => trivial
  | cons chunk tag terminal below rest _ rest_leaves =>
    obtain ⟨leaf, inBelow, inRest⟩ := leaves
    unfold startingWith
    split
    · rw [advance, wordsAtLeaves_append]
      exact ⟨inBelow.advanceEdge leaf, rest_leaves inRest⟩
    · exact rest_leaves inRest

theorem levelBound_append (first second : Branches ι) :
    (first.append second).levelBound =
      max first.levelBound second.levelBound := by
  induction first with
  | nil => simp [append, levelBound]
  | cons chunk tag terminal below rest _ rest_bound =>
    rw [append, levelBound, levelBound, rest_bound, Nat.max_assoc]

/-- Consuming bytes lowers the bound on the number of levels. -/
theorem levelBound_group
    (positive : 0 < width)
    (wide : ∀ chunk ∈ branches.chunks, width ≤ chunk.length)
    (start : Bytes) :
    ((branches.startingWith width start).advance width).levelBound ≤
      branches.levelBound - 1 := by
  induction branches with
  | nil => exact Nat.zero_le _
  | cons chunk tag terminal below rest _ rest_bound =>
    have within : width ≤ chunk.length := wide chunk List.mem_cons_self
    have later := rest_bound
      fun other listed => wide other (List.mem_cons_of_mem chunk listed)
    unfold startingWith
    rw [levelBound]
    split
    · have here := levelBound_advanceEdge (chunk.drop width) tag terminal below
      rw [List.length_drop] at here
      rw [advance, levelBound_append]
      omega
    · omega

/-- What is left of the words that begin with the bytes of a group has one
length again. -/
theorem OfOneLength.group
    {length : Nat}
    (one : branches.OfOneLength length)
    (wide : ∀ chunk ∈ branches.chunks, width ≤ chunk.length)
    (start_length : start.length = width) :
    ((branches.startingWith width start).advance width).OfOneLength
      (length - width) := by
  have words_iff : ∀ word member, (word, member) ∈
        ((branches.startingWith width start).advance width).words ↔
      word ≠ [] ∧ (start ++ word, member) ∈ branches.words :=
    fun _ _ => mem_words_group one.nonempty one.leaves wide start_length
  refine ⟨one.nonempty.group (fun _ _ unused => unused) ?_,
    one.leaves.group, ?_, ?_⟩
  · intro chunk other _ nonempty
    simp [nonempty]
  · intro word member present
    have longer := one.length_eq _ member
      ((words_iff word member).mp present).2
    rw [List.length_append] at longer
    omega
  · intro word first second first_mem second_mem
    exact one.functional (start ++ word) first second
      ((words_iff word first).mp first_mem).2
      ((words_iff word second).mp second_mem).2

end

end Branches
end WordSwitch
