import Mathlib.Data.List.Sort
import WordSwitch.Proofs.Trie.Paths
import WordSwitch.Proofs.Trie.Recut

/-!
# Words in ascending order

Branches are ordered if the chunks that leave a node ascend and have one width,
at every node.  Then their words ascend too, because words that go different
ways differ within the first chunk in which they do.  Restricting a trie to a
length orders its branches, since chunks are cut by the length alone, and
recutting orders them again.
-/

namespace WordSwitch

namespace Bytes

/-- Bytes that differ before one of them ends stay in order, whatever comes
behind them. -/
theorem append_lt_append_of_not_prefix
    {first second : Bytes}
    (before : first < second)
    (differ : ¬first <+: second)
    (firstTail secondTail : Bytes) :
    first ++ firstTail < second ++ secondTail := by
  induction first generalizing second with
  | nil => exact absurd List.nil_prefix differ
  | cons byte rest hypothesis =>
    cases second with
    | nil => cases before
    | cons other others =>
      rw [List.cons_append, List.cons_append, List.cons_lt_cons_iff]
      rcases List.cons_lt_cons_iff.mp before with less | ⟨rfl, later⟩
      · exact Or.inl less
      · refine Or.inr ⟨rfl, hypothesis later fun begins => ?_⟩
        exact differ (List.cons_prefix_cons.mpr ⟨rfl, begins⟩)

theorem append_lt_append_of_lt
    {first second : Bytes}
    (before : first < second)
    (length_eq : first.length = second.length)
    (firstTail secondTail : Bytes) :
    first ++ firstTail < second ++ secondTail := by
  refine append_lt_append_of_not_prefix before ?_ firstTail secondTail
  intro begins
  rw [begins.eq_of_length length_eq] at before
  exact List.lt_irrefl second before

theorem lt_append_of_ne_nil
    (bytes : Bytes)
    {tail : Bytes}
    (nonempty : tail ≠ []) :
    bytes < bytes ++ tail := by
  have before : [] < tail := by
    cases tail with
    | nil => exact absurd rfl nonempty
    | cons byte rest => exact List.nil_lt_cons byte rest
  have extended : bytes ++ [] < bytes ++ tail := List.append_left_lt before
  rwa [List.append_nil] at extended

end Bytes

namespace Spelling

/-- A spelling stands before another if its word does. -/
def Before (first second : Spelling) : Prop :=
  first.1 < second.1

instance (first second : Spelling) : Decidable (Before first second) :=
  inferInstanceAs (Decidable (first.1 < second.1))

instance : Std.Irrefl Before :=
  ⟨fun spelling => List.lt_irrefl spelling.1⟩

instance : Std.Antisymm Before :=
  ⟨fun _ _ before after =>
    absurd (List.lt_trans before after) (List.lt_irrefl _)⟩

end Spelling

namespace Branches

variable {ι : Type}

/-- The chunks that leave a node are in ascending order and have one width, at
every node. -/
def Ordered : Branches ι → Prop
  | nil => True
  | cons chunk _ _ below rest =>
    (∀ other ∈ rest.chunks, chunk < other ∧ chunk.length = other.length) ∧
      below.Ordered ∧ rest.Ordered

@[simp] theorem ordered_shape {branches : Branches ι} :
    branches.shape.Ordered ↔ branches.Ordered := by
  induction branches with
  | nil => rfl
  | cons chunk tag terminal below rest below_iff rest_iff =>
    simp [shape, Ordered, below_iff, rest_iff]

theorem ordered_fan
    {terminal : Bytes → Option Enumerator}
    {below : Bytes → Branches Unit}
    {chunks : List Bytes} :
    (fan terminal below chunks).Ordered ↔
      chunks.Pairwise (fun first second =>
        first < second ∧ first.length = second.length) ∧
      ∀ chunk ∈ chunks, (below chunk).Ordered := by
  induction chunks with
  | nil => simp [fan, Ordered]
  | cons chunk rest hypothesis =>
    rw [fan_cons, Ordered, hypothesis, chunks_fan,
      List.pairwise_cons, List.forall_mem_cons]
    grind

/-! ## Words -/

/-- The words of ordered branches ascend. -/
theorem Ordered.pairwise_words
    {branches : Branches ι}
    (ordered : branches.Ordered)
    (nonempty : branches.EveryChunk (· ≠ [])) :
    branches.words.Pairwise Spelling.Before := by
  induction branches with
  | nil => exact List.Pairwise.nil
  | cons chunk tag terminal below rest below_pairwise rest_pairwise =>
    obtain ⟨first, belowOrdered, restOrdered⟩ := ordered
    obtain ⟨_, belowNonempty, restNonempty⟩ := nonempty
    rw [words_cons, List.pairwise_append, List.pairwise_append]
    refine ⟨⟨?_, ?_, ?_⟩, rest_pairwise restOrdered restNonempty, ?_⟩
    · exact pairwise_ownSpelling _ chunk terminal
    · rw [List.pairwise_map]
      refine (below_pairwise belowOrdered belowNonempty).imp ?_
      intro earlier later before
      exact List.append_left_lt before
    · intro own inOwn extended inExtended
      have own_eq : own.1 = chunk := by
        cases terminal with
        | none => cases inOwn
        | some enumerator => rw [List.mem_singleton.mp inOwn]
      obtain ⟨⟨tail, member⟩, inside, rfl⟩ := List.mem_map.mp inExtended
      rw [Spelling.Before, own_eq]
      exact Bytes.lt_append_of_ne_nil chunk
        (ne_nil_of_mem_words belowNonempty inside)
    · intro here inHere later inRest
      -- A word of this edge begins with its chunk, one of the rest with a
      -- larger chunk of the same width.
      have present : here ∈ (cons chunk tag terminal below nil).words := by
        rw [words_cons, words_nil, List.append_nil]
        exact inHere
      obtain ⟨key, listed, tail, here_eq⟩ := exists_chunk_prefix present
      rw [chunks, chunks, List.mem_singleton] at listed
      obtain ⟨other, otherListed, otherTail, later_eq⟩ :=
        exists_chunk_prefix inRest
      obtain ⟨before, length_eq⟩ := first other otherListed
      rw [Spelling.Before, ← here_eq, ← later_eq, listed]
      exact Bytes.append_lt_append_of_lt before length_eq tail otherTail

/-! ## Cut by the length -/

theorem PathsCut.below
    {maxWidth : Nat}
    {chunk : Bytes}
    {tag : ι}
    {terminal : Option Enumerator}
    {below rest : Branches ι}
    (cut : (cons chunk tag terminal below rest).PathsCut maxWidth) :
    below.PathsCut maxWidth := by
  intro second path member found
  have pieces := cut chunk (second :: path) member (by simpa using found)
  rw [List.flatten_cons] at pieces
  exact (Chunk.of_cut_append pieces).2

theorem PathsCut.rest
    {maxWidth : Nat}
    {chunk : Bytes}
    {tag : ι}
    {terminal : Option Enumerator}
    {below rest : Branches ι}
    (cut : (cons chunk tag terminal below rest).PathsCut maxWidth)
    (sorted : (cons chunk tag terminal below rest).Sorted) :
    rest.PathsCut maxWidth := by
  intro other path member found
  refine cut other path member ?_
  have different : other ≠ chunk := by
    rintro rfl
    exact List.lt_irrefl other
      (sorted.1 other (mem_chunks_of_terminalAt? found))
  rw [terminalAt?_cons_of_ne different]
  exact found

/-- All chunks that leave a node are as wide as the length of the words
allows. -/
theorem PathsCut.length_of_mem_chunks
    {maxWidth length : Nat}
    {branches : Branches ι}
    (cut : branches.PathsCut maxWidth)
    (sorted : branches.Sorted)
    (one : branches.OfOneLength length)
    {chunk : Bytes}
    (listed : chunk ∈ branches.chunks) :
    chunk.length = Chunk.readWidth length maxWidth := by
  obtain ⟨path, member, found⟩ := one.leaves.exists_path sorted listed
  have total := one.length_eq _ member
    (sorted.mem_words_iff.mpr ⟨chunk, path, rfl, found⟩)
  have pieces := cut chunk path member found
  rw [List.flatten_cons] at total pieces
  rw [← total]
  exact (Chunk.of_cut_append pieces).1

theorem PathsCut.ordered
    {maxWidth length : Nat}
    {branches : Branches ι}
    (cut : branches.PathsCut maxWidth)
    (sorted : branches.Sorted)
    (one : branches.OfOneLength length) :
    branches.Ordered := by
  induction branches generalizing length with
  | nil => trivial
  | cons chunk tag terminal below rest below_ordered rest_ordered =>
    have width_eq : ∀ other ∈ (cons chunk tag terminal below rest).chunks,
        other.length = Chunk.readWidth length maxWidth :=
      fun _ => cut.length_of_mem_chunks sorted one
    refine ⟨?_, below_ordered cut.below sorted.2.1 one.below,
      rest_ordered (cut.rest sorted) sorted.2.2 one.rest⟩
    intro other listed
    refine ⟨sorted.1 other listed, ?_⟩
    rw [width_eq chunk List.mem_cons_self,
      width_eq other (List.mem_cons_of_mem chunk listed)]

/-- Recutting orders branches. -/
theorem ordered_recutWithin
    {cutting : Cutting}
    (positive : 0 < cutting.maxWidth)
    {bound length : Nat}
    {branches : Branches ι}
    (one : branches.OfOneLength length)
    (enough : branches.levelBound ≤ bound) :
    (branches.recutWithin cutting bound).Ordered := by
  induction bound generalizing length branches with
  | zero =>
    rw [eq_nil_of_levelBound enough, recutWithin_nil]
    trivial
  | succ bound hypothesis =>
    rw [recutWithin_succ, ordered_fan]
    constructor
    · refine (pairwise_ascending _).imp_of_mem ?_
      intro first second first_mem second_mem before
      exact ⟨before, (length_start one first_mem).trans
        (length_start one second_mem).symm⟩
    · intro start listed
      exact hypothesis (one.start_of_group listed)
        (one.levelBound_start positive enough start)

end Branches

namespace Trie

/-- The words of a trie ascend if its branches are ordered. -/
theorem pairwise_words
    {trie : Trie}
    (nonempty : trie.branches.EveryChunk (· ≠ []))
    (ordered : trie.branches.Ordered) :
    trie.words.Pairwise Spelling.Before := by
  rw [words, List.pairwise_append]
  refine ⟨Branches.pairwise_ownSpelling _ _ _,
    ordered.pairwise_words nonempty, ?_⟩
  rintro ⟨own, member⟩ inOwn ⟨word, other⟩ inBranches
  obtain ⟨rfl, _⟩ := Branches.mem_ownSpelling.mp inOwn
  exact Bytes.lt_append_of_ne_nil []
    (Branches.ne_nil_of_mem_words nonempty inBranches)

/-- Restricting a trie to a length orders its branches. -/
theorem Canonical.ordered_of_ofLength?
    {trie restricted : Trie}
    (canonical : trie.Canonical)
    {length : Nat}
    (restriction : trie.ofLength? length = some restricted) :
    restricted.branches.Ordered := by
  have restrictedCanonical := canonical.ofLength? restriction
  exact restrictedCanonical.pathsCut.ordered restrictedCanonical.sorted
    (canonical.ofLength?_eq_some restriction).1.branches

section

variable
  {length : Nat}
  {trie : Trie}

/-- Recutting a trie orders its branches. -/
theorem OfOneLength.ordered_recut
    (one : trie.OfOneLength length)
    (ignoreCase : Bool)
    (maxWidth : Nat) :
    (trie.recut ignoreCase maxWidth).branches.Ordered := by
  rw [← Branches.ordered_shape, Trie.recut, Branches.shape_numberDownward,
    Branches.shape_unit]
  refine Branches.ordered_recutWithin ?_ one.branches (Nat.le_refl _)
  exact Nat.lt_of_lt_of_le Nat.one_pos (Nat.le_max_right maxWidth 1)

/-- Recutting an ordered trie lists the same words in the same order. -/
theorem OfOneLength.words_recut
    (one : trie.OfOneLength length)
    (ordered : trie.branches.Ordered)
    (ignoreCase : Bool)
    (maxWidth : Nat) :
    (trie.recut ignoreCase maxWidth).words = trie.words := by
  have recutAscends := pairwise_words
    (one.recut ignoreCase maxWidth).branches.nonempty
    (one.ordered_recut ignoreCase maxWidth)
  refine recutAscends.eq_of_mem_iff
    (pairwise_words one.branches.nonempty ordered) ?_
  rintro ⟨word, member⟩
  exact mem_words_recut one ignoreCase

end

end Trie
end WordSwitch
