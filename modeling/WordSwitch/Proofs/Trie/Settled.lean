import Mathlib.Data.List.Sort
import WordSwitch.Proofs.Trie.Order
import WordSwitch.Proofs.Trie.Reached

/-!
# Branches that recutting leaves as they are

Branches are settled if, at every node, the chunks that leave it ascend and
have one width, at which each of them may be compared.  Recutting settles
branches, and it keeps settled branches, so recutting twice is recutting once.
When case is kept, the width alone decides, and branches that were restricted
to a length are settled from the start.
-/

namespace WordSwitch

namespace Chunk

/-- Chunks that have one width, at which each of them may be compared. -/
def Settled (ignoreCase : Bool) (maxWidth : Nat) (chunks : List Bytes) : Prop :=
  ∃ width, ∀ chunk ∈ chunks,
    chunk.length = width ∧ safeWidth ignoreCase maxWidth chunk = width

theorem settled_nil (ignoreCase : Bool) (maxWidth : Nat) :
    Settled ignoreCase maxWidth [] :=
  ⟨1, List.forall_mem_nil _⟩

end Chunk

theorem ascending_of_pairwise
    {values : List Bytes}
    (sorted : values.Pairwise (· < ·)) :
    ascending values = values :=
  (pairwise_ascending values).eq_of_mem_iff sorted fun _ => mem_ascending

namespace Branches

variable {ι : Type}

/-- At every node, the chunks that leave it ascend and are settled. -/
structure Settled (cutting : Cutting) (branches : Branches ι) : Prop where
  sorted : branches.Sorted
  here : Chunk.Settled cutting.ignoreCase cutting.maxWidth branches.chunks
  further : branches.EveryNode
    (Chunk.Settled cutting.ignoreCase cutting.maxWidth)

section

variable
  {cutting : Cutting}
  {branches : Branches ι}

theorem settled_nil (cutting : Cutting) : (nil : Branches ι).Settled cutting :=
  ⟨trivial, Chunk.settled_nil _ _, trivial⟩

@[simp] theorem settled_shape :
    branches.shape.Settled cutting ↔ branches.Settled cutting := by
  constructor
  · rintro ⟨sorted, here, further⟩
    exact ⟨sorted_shape.mp sorted, chunks_shape branches ▸ here,
      everyNode_shape.mp further⟩
  · rintro ⟨sorted, here, further⟩
    exact ⟨sorted_shape.mpr sorted, (chunks_shape branches).symm ▸ here,
      everyNode_shape.mpr further⟩

/-- The width that settled chunks have is their common width. -/
theorem Settled.length_eq
    (settled : branches.Settled cutting)
    {chunk : Bytes}
    (listed : chunk ∈ branches.chunks) :
    chunk.length = branches.commonWidth cutting := by
  have edges : branches ≠ nil := by
    rintro rfl
    cases listed
  obtain ⟨width, widths⟩ := settled.here
  obtain ⟨other, otherListed, common⟩ := commonWidth_mem cutting edges
  rw [common, (widths other otherListed).2, (widths chunk listed).1]

theorem Settled.starts_eq (settled : branches.Settled cutting) :
    branches.starts cutting = branches.chunks := by
  have taken : branches.chunks.map (·.take (branches.commonWidth cutting)) =
      branches.chunks := by
    refine (List.map_congr_left ?_).trans (List.map_id _)
    intro chunk listed
    exact List.take_of_length_le (Nat.le_of_eq (settled.length_eq listed))
  rw [starts, taken, ascending_of_pairwise (pairwise_chunks settled.sorted)]

/-! ## Keeping settled branches -/

/-- If all chunks have one width, the edges with some first bytes are a single
edge, which is consumed as a whole. -/
theorem fan_chunks
    {width bound : Nat}
    {below : Branches ι → Branches Unit}
    (kept : ∀ {inner : Branches ι}, inner.Settled cutting →
      inner.levelBound ≤ bound → below inner = inner.shape)
    (sorted : branches.Sorted)
    (further : branches.EveryNode
      (Chunk.Settled cutting.ignoreCase cutting.maxWidth))
    (wide : ∀ chunk ∈ branches.chunks, chunk.length = width)
    (enough : branches.levelBound ≤ bound + 1) :
    fan (fun start => (branches.startingWith width start).landing width)
        (fun start => below ((branches.startingWith width start).advance width))
        branches.chunks =
      branches.shape := by
  induction branches with
  | nil => rfl
  | cons chunk tag terminal inner rest _ rest_fan =>
    obtain ⟨first, innerSorted, restSorted⟩ := sorted
    obtain ⟨innerHere, innerFurther, restFurther⟩ := further
    obtain ⟨chunk_length, restWide⟩ := List.forall_mem_cons.mp wide
    rw [levelBound] at enough
    have taken : ∀ other ∈ chunk :: rest.chunks, other.take width = other :=
      fun other listed => List.take_of_length_le (Nat.le_of_eq
        (wide other listed))
    have only : (cons chunk tag terminal inner rest).startingWith width chunk =
        cons chunk tag terminal inner nil := by
      rw [startingWith, if_pos (taken chunk List.mem_cons_self),
        startingWith_of_not_mem]
      intro listed
      obtain ⟨other, inRest, begins⟩ := List.mem_map.mp listed
      rw [taken other (List.mem_cons_of_mem _ inRest)] at begins
      exact List.lt_irrefl chunk (begins ▸ first other inRest)
    have others : ∀ start ∈ rest.chunks,
        (cons chunk tag terminal inner rest).startingWith width start =
          rest.startingWith width start := by
      intro start listed
      rw [startingWith, if_neg]
      rw [taken chunk List.mem_cons_self]
      rintro rfl
      exact List.lt_irrefl chunk (first chunk listed)
    have here : below ((cons chunk tag terminal inner nil).advance width) =
        inner.shape := by
      rw [advance, List.drop_of_length_le (Nat.le_of_eq chunk_length),
        advanceEdge, if_pos List.isEmpty_nil, advance, append_nil]
      exact kept ⟨innerSorted, innerHere, innerFurther⟩ (by omega)
    have later := rest_fan restSorted restFurther restWide (by omega)
    rw [chunks, fan_cons, only, here, landing, if_pos (Nat.le_of_eq chunk_length),
      shape, ← later]
    congr 1
    exact fan_congr fun start listed => by simp only [others start listed, and_self]

/-- Recutting keeps settled branches. -/
theorem Settled.recutWithin
    (settled : branches.Settled cutting)
    {bound : Nat}
    (enough : branches.levelBound ≤ bound) :
    branches.recutWithin cutting bound = branches.shape := by
  induction bound generalizing branches with
  | zero =>
    rw [eq_nil_of_levelBound enough]
    rfl
  | succ bound hypothesis =>
    rw [recutWithin_succ, settled.starts_eq]
    exact fan_chunks hypothesis settled.sorted settled.further
      (fun _ => settled.length_eq) enough

/-! ## Settling branches -/

theorem settled_starts
    (positive : 0 < cutting.maxWidth)
    (nonempty : branches.EveryChunk (· ≠ [])) :
    Chunk.Settled cutting.ignoreCase cutting.maxWidth
      (branches.starts cutting) := by
  refine ⟨branches.commonWidth cutting, ?_⟩
  intro start listed
  obtain ⟨chunk, member, rfl⟩ := mem_starts.mp listed
  have within := commonWidth_le_length cutting nonempty member
  constructor
  · rw [List.length_take, Nat.min_eq_left within]
  · exact Chunk.safeWidth_take (readableWithin_commonWidth positive branches)
      within (commonWidth_le cutting member)

/-- Recutting settles branches. -/
theorem settled_recutWithin
    (positive : 0 < cutting.maxWidth)
    (nonempty : branches.EveryChunk (· ≠ []))
    (bound : Nat) :
    (branches.recutWithin cutting bound).Settled cutting := by
  induction bound generalizing branches with
  | zero => exact settled_nil cutting
  | succ bound hypothesis =>
    refine ⟨sorted_recutWithin cutting (bound + 1) branches, ?_, ?_⟩
    · rw [recutWithin_succ, chunks_fan]
      exact settled_starts positive nonempty
    · rw [recutWithin_succ, everyNode_fan]
      intro start _
      have inGroup : (branches.group cutting start).EveryChunk (· ≠ []) :=
        group_nonempty nonempty start
      have below := hypothesis inGroup
      exact ⟨below.here, below.further⟩

/-- If case is kept, chunks that are as wide as the length of the words allows
are settled. -/
theorem PathsCut.settled_chunks
    {maxWidth length : Nat}
    (positive : 0 < maxWidth)
    (cut : branches.PathsCut maxWidth)
    (sorted : branches.Sorted)
    (one : branches.OfOneLength length) :
    Chunk.Settled false maxWidth branches.chunks := by
  refine ⟨Chunk.readWidth length maxWidth, ?_⟩
  intro chunk listed
  have length_eq := cut.length_of_mem_chunks sorted one listed
  refine ⟨length_eq, ?_⟩
  rw [Chunk.safeWidth, if_neg Bool.false_ne_true, length_eq]
  exact Chunk.readWidth_of_readable
    (Chunk.readableWithin_readWidth positive length)

theorem PathsCut.settled
    {maxWidth length : Nat}
    (positive : 0 < maxWidth)
    (cut : branches.PathsCut maxWidth)
    (sorted : branches.Sorted)
    (one : branches.OfOneLength length) :
    branches.Settled ⟨false, maxWidth⟩ := by
  refine ⟨sorted, cut.settled_chunks positive sorted one, ?_⟩
  induction branches generalizing length with
  | nil => trivial
  | cons chunk tag terminal below rest below_settled rest_settled =>
    exact ⟨cut.below.settled_chunks positive sorted.2.1 one.below,
      below_settled cut.below sorted.2.1 one.below,
      rest_settled (cut.rest sorted) sorted.2.2 one.rest⟩

end

/-! ## Numbering -/

theorem numberDownward_shape (branches : Branches ι) (next : Nat) :
    branches.shape.numberDownward next = branches.numberDownward next := by
  induction branches generalizing next with
  | nil => rfl
  | cons chunk tag terminal below rest below_eq rest_eq =>
    simp [shape, numberDownward, below_eq, rest_eq]

/-- Numbers depend on the shape alone. -/
theorem numberDownward_numberDownward
    (branches : Branches ι)
    (first next : Nat) :
    (branches.numberDownward first).numberDownward next =
      branches.numberDownward next := by
  rw [← numberDownward_shape, shape_numberDownward, numberDownward_shape]

end Branches

namespace Trie

variable
  {trie : Trie}
  {ignoreCase : Bool}
  {maxWidth : Nat}

/-- Recutting settled branches numbers them afresh and does nothing else. -/
theorem recut_of_settled
    (settled : trie.branches.Settled ⟨ignoreCase, max maxWidth 1⟩) :
    trie.recut ignoreCase maxWidth =
      ⟨max maxWidth 1, trie.terminal, trie.branches.numberDownward 1⟩ := by
  have kept := settled.recutWithin (Nat.le_refl trie.branches.levelBound)
  rw [recut, Branches.recut, kept, Branches.numberDownward_shape]

theorem WellFormed.settled_recut
    (formed : trie.WellFormed)
    (ignoreCase : Bool)
    (maxWidth : Nat) :
    (trie.recut ignoreCase maxWidth).branches.Settled
      ⟨ignoreCase, max maxWidth 1⟩ := by
  have positive : 0 < Cutting.maxWidth ⟨ignoreCase, max maxWidth 1⟩ :=
    Nat.lt_of_lt_of_le Nat.one_pos (Nat.le_max_right maxWidth 1)
  rw [← Branches.settled_shape, Trie.recut, Branches.shape_numberDownward,
    Branches.shape_unit]
  exact Branches.settled_recutWithin positive formed.nonempty _

/-- Recutting a trie twice is recutting it once, numbers included. -/
theorem WellFormed.recut_recut
    (formed : trie.WellFormed)
    (ignoreCase : Bool)
    (maxWidth : Nat) :
    (trie.recut ignoreCase maxWidth).recut ignoreCase maxWidth =
      trie.recut ignoreCase maxWidth := by
  rw [recut_of_settled (formed.settled_recut ignoreCase maxWidth), Trie.recut,
    Branches.numberDownward_numberDownward]

/-- If case is kept, a trie that is restricted to a length is settled. -/
theorem Canonical.settled_of_ofLength?
    {restricted : Trie}
    (canonical : trie.Canonical)
    (positive : 0 < trie.maxWidth)
    {length : Nat}
    (restriction : trie.ofLength? length = some restricted) :
    restricted.branches.Settled ⟨false, trie.maxWidth⟩ := by
  have restrictedCanonical := canonical.ofLength? restriction
  have cut := restrictedCanonical.pathsCut
  rw [maxWidth_ofLength? restriction] at cut
  exact cut.settled positive restrictedCanonical.sorted
    (canonical.ofLength?_eq_some restriction).1.branches

end Trie
end WordSwitch
