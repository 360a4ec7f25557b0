import Mathlib.Data.List.Sort
import WordSwitch.Proofs.Chunk.Widths
import WordSwitch.Proofs.Trie.Paths
import WordSwitch.Proofs.Trie.Recut

/-!
# Tries that can be reached

A trie is changed by inserting a word, by restricting it to a length and by
cutting it again, in any order.  Whatever is done to the trie without words,
the edges of every node stay in ascending order, every chunk can be read at
once, and a word ends at every leaf.
-/

namespace WordSwitch

namespace Branches

variable {ι : Type}

/-- A word ends at every leaf, and perhaps elsewhere. -/
def LeavesEnd : Branches ι → Prop
  | nil => True
  | cons _ _ terminal below rest =>
    (below.isNil = true → terminal.isSome = true) ∧ below.LeavesEnd ∧
      rest.LeavesEnd

@[simp] theorem leavesEnd_shape {branches : Branches ι} :
    branches.shape.LeavesEnd ↔ branches.LeavesEnd := by
  induction branches with
  | nil => rfl
  | cons chunk tag terminal below rest below_iff rest_iff =>
    simp [shape, LeavesEnd, below_iff, rest_iff]

theorem WordsAtLeaves.leavesEnd
    {branches : Branches ι}
    (leaves : branches.WordsAtLeaves) :
    branches.LeavesEnd := by
  induction branches with
  | nil => trivial
  | cons chunk tag terminal below rest below_end rest_end =>
    obtain ⟨leaf, inBelow, inRest⟩ := leaves
    exact ⟨fun ends => leaf ▸ ends, below_end inBelow, rest_end inRest⟩

/-! ## Insertion -/

theorem isNil_insert
    (next : Nat)
    (enumerator : Enumerator)
    (branches : Branches Nat)
    (chunk : Bytes)
    (path : List Bytes) :
    (branches.insert next enumerator chunk path).isNil = false := by
  have listed : chunk ∈ (branches.insert next enumerator chunk path).chunks :=
    mem_chunks_insert.mpr (Or.inl rfl)
  cases inserted : branches.insert next enumerator chunk path with
  | nil =>
    rw [inserted] at listed
    cases listed
  | cons _ _ _ _ _ => rfl

theorem leavesEnd_chain
    (next : Nat)
    (enumerator : Enumerator)
    (chunk : Bytes)
    (path : List Bytes)
    {others : Branches Nat}
    (leaves : others.LeavesEnd) :
    (chain next enumerator chunk path others).LeavesEnd := by
  induction path generalizing next chunk others with
  | nil => exact ⟨fun _ => rfl, trivial, leaves⟩
  | cons second path hypothesis =>
    refine ⟨?_, hypothesis (next + 1) second trivial, leaves⟩
    cases path <;> exact nofun

theorem LeavesEnd.insert
    {branches : Branches Nat}
    (leaves : branches.LeavesEnd)
    (next : Nat)
    (enumerator : Enumerator)
    (chunk : Bytes)
    (path : List Bytes) :
    (branches.insert next enumerator chunk path).LeavesEnd := by
  induction branches generalizing chunk path with
  | nil => exact leavesEnd_chain next enumerator chunk path trivial
  | cons key tag terminal below rest below_insert rest_insert =>
    obtain ⟨leaf, inBelow, inRest⟩ := leaves
    by_cases equal : chunk = key
    · subst equal
      cases path with
      | nil =>
        rw [Branches.insert, if_pos rfl]
        exact ⟨fun _ => rfl, inBelow, inRest⟩
      | cons second path =>
        rw [Branches.insert, if_pos rfl]
        refine ⟨?_, below_insert inBelow second path, inRest⟩
        rw [isNil_insert]
        exact fun ends => absurd ends Bool.false_ne_true
    · rw [insert_cons_of_ne equal]
      split
      · exact leavesEnd_chain next enumerator chunk path
          ⟨leaf, inBelow, inRest⟩
      · exact ⟨leaf, inBelow, rest_insert inRest chunk path⟩

/-! ## Cutting again -/

theorem leavesEnd_append {branches others : Branches ι} :
    (branches.append others).LeavesEnd ↔
      branches.LeavesEnd ∧ others.LeavesEnd := by
  induction branches with
  | nil => simp [append, LeavesEnd]
  | cons chunk tag terminal below rest _ rest_iff =>
    simp [append, LeavesEnd, rest_iff, and_assoc]

theorem LeavesEnd.prepend
    (bytes : Bytes)
    {branches : Branches ι}
    (leaves : branches.LeavesEnd) :
    (branches.prepend bytes).LeavesEnd := by
  induction branches with
  | nil => trivial
  | cons chunk tag terminal below rest _ rest_leaves =>
    exact ⟨leaves.1, leaves.2.1, rest_leaves leaves.2.2⟩

theorem LeavesEnd.advanceEdge
    {terminal : Option Enumerator}
    {below : Branches ι}
    (leaf : below.isNil = true → terminal.isSome = true)
    (leaves : below.LeavesEnd)
    (remainder : Bytes)
    (tag : ι) :
    (advanceEdge remainder tag terminal below).LeavesEnd := by
  unfold Branches.advanceEdge
  split
  · exact leaves
  · split
    · next ends => exact ⟨fun _ => leaf ends, trivial, trivial⟩
    · exact leaves.prepend remainder

theorem LeavesEnd.startingWith
    {branches : Branches ι}
    (leaves : branches.LeavesEnd)
    (width : Nat)
    (start : Bytes) :
    (branches.startingWith width start).LeavesEnd := by
  induction branches with
  | nil => trivial
  | cons chunk tag terminal below rest _ rest_leaves =>
    obtain ⟨leaf, inBelow, inRest⟩ := leaves
    unfold Branches.startingWith
    split
    · exact ⟨leaf, inBelow, rest_leaves inRest⟩
    · exact rest_leaves inRest

theorem LeavesEnd.advance
    {branches : Branches ι}
    (leaves : branches.LeavesEnd)
    (width : Nat) :
    (branches.advance width).LeavesEnd := by
  induction branches with
  | nil => trivial
  | cons chunk tag terminal below rest _ rest_leaves =>
    obtain ⟨leaf, inBelow, inRest⟩ := leaves
    rw [Branches.advance, leavesEnd_append]
    exact ⟨inBelow.advanceEdge leaf _ tag, rest_leaves inRest⟩

theorem isNil_append (branches others : Branches ι) :
    (branches.append others).isNil = (branches.isNil && others.isNil) := by
  cases branches <;> rfl

/-- An edge of which nothing is left led to a leaf and is used up. -/
theorem isNil_advanceEdge
    (remainder : Bytes)
    (tag : ι)
    (terminal : Option Enumerator)
    (below : Branches ι) :
    (advanceEdge remainder tag terminal below).isNil =
      (remainder.isEmpty && below.isNil) := by
  unfold advanceEdge
  split
  · next used => rw [used, Bool.true_and]
  · next unused =>
    rw [Bool.not_eq_true] at unused
    rw [unused, Bool.false_and]
    split
    · rfl
    · next goesOn =>
      rw [isNil_prepend]
      exact Bool.not_eq_true _ ▸ goesOn

/-- Edges of which nothing is left land on a terminal. -/
theorem LeavesEnd.isSome_landing
    {branches : Branches ι}
    (leaves : branches.LeavesEnd)
    (edges : branches.isNil = false)
    {width : Nat}
    (nothing : (branches.advance width).isNil = true) :
    (branches.landing width).isSome = true := by
  cases branches with
  | nil => cases edges
  | cons chunk tag terminal below rest =>
    rw [Branches.advance, isNil_append, isNil_advanceEdge, Bool.and_eq_true,
      Bool.and_eq_true, List.isEmpty_iff, List.drop_eq_nil_iff] at nothing
    obtain ⟨⟨used, ends⟩, _⟩ := nothing
    rw [landing, if_pos used, Option.isSome_or, leaves.1 ends, Bool.or_true]

theorem leavesEnd_fan
    {terminal : Bytes → Option Enumerator}
    {below : Bytes → Branches Unit}
    {chunks : List Bytes} :
    (fan terminal below chunks).LeavesEnd ↔
      ∀ chunk ∈ chunks,
        ((below chunk).isNil = true → (terminal chunk).isSome = true) ∧
        (below chunk).LeavesEnd := by
  induction chunks with
  | nil => simp [fan, LeavesEnd]
  | cons chunk rest hypothesis =>
    rw [fan_cons, LeavesEnd, hypothesis]
    simp [and_assoc]

theorem sorted_fan
    {terminal : Bytes → Option Enumerator}
    {below : Bytes → Branches Unit}
    {chunks : List Bytes} :
    (fan terminal below chunks).Sorted ↔
      chunks.Pairwise (· < ·) ∧ ∀ chunk ∈ chunks, (below chunk).Sorted := by
  induction chunks with
  | nil => simp [fan, Sorted]
  | cons chunk rest hypothesis =>
    rw [fan_cons, Sorted, hypothesis, chunks_fan,
      List.pairwise_cons, List.forall_mem_cons]
    grind

/-- Recutting puts the edges of every node in ascending order. -/
theorem sorted_recutWithin
    (cutting : Cutting)
    (bound : Nat)
    (branches : Branches ι) :
    (branches.recutWithin cutting bound).Sorted := by
  induction bound generalizing branches with
  | zero => trivial
  | succ bound hypothesis =>
    rw [recutWithin_succ, sorted_fan]
    exact ⟨pairwise_ascending _, fun start _ => hypothesis _⟩

section

variable
  {cutting : Cutting}
  {branches : Branches ι}

theorem group_nonempty
    (nonempty : branches.EveryChunk (· ≠ []))
    (start : Bytes) :
    (branches.group cutting start).EveryChunk (· ≠ []) := by
  refine nonempty.group (fun _ _ unused => unused) ?_
  intro chunk other _ other_nonempty
  simp [other_nonempty]

/-- Every chunk that recutting makes can be read at once. -/
theorem readable_recutWithin
    (positive : 0 < cutting.maxWidth)
    (nonempty : branches.EveryChunk (· ≠ []))
    (bound : Nat) :
    (branches.recutWithin cutting bound).EveryChunk fun chunk =>
      Chunk.ReadableWithin cutting.maxWidth chunk.length := by
  induction bound generalizing branches with
  | zero => trivial
  | succ bound hypothesis =>
    rw [recutWithin_succ, everyChunk_fan]
    intro start listed
    refine ⟨?_, hypothesis (group_nonempty nonempty start)⟩
    obtain ⟨chunk, member, rfl⟩ := mem_starts.mp listed
    rw [List.length_take,
      Nat.min_eq_left (commonWidth_le_length cutting nonempty member)]
    exact readableWithin_commonWidth positive branches

theorem isNil_startingWith
    {width : Nat}
    {start chunk : Bytes}
    (listed : chunk ∈ branches.chunks)
    (begins : chunk.take width = start) :
    (branches.startingWith width start).isNil = false := by
  induction branches with
  | nil => cases listed
  | cons key tag terminal below rest _ rest_isNil =>
    unfold startingWith
    split
    · rfl
    · next other =>
      rcases List.mem_cons.mp listed with rfl | later
      · exact absurd begins other
      · exact rest_isNil later

theorem levelBound_of_group
    (positive : 0 < cutting.maxWidth)
    (nonempty : branches.EveryChunk (· ≠ []))
    {bound : Nat}
    (enough : branches.levelBound ≤ bound + 1)
    (start : Bytes) :
    (branches.group cutting start).levelBound ≤ bound := by
  have lower := levelBound_group
    (readableWithin_commonWidth positive branches).pos
    (fun _ => commonWidth_le_length cutting nonempty) start
  unfold group
  omega

theorem isNil_eq_of_recutWithin
    {bound : Nat}
    (enough : branches.levelBound ≤ bound)
    (nothing : (branches.recutWithin cutting bound).isNil = true) :
    branches.isNil = true := by
  cases bound with
  | zero => rw [eq_nil_of_levelBound enough]; rfl
  | succ bound =>
    have no_start : branches.starts cutting = [] := by
      have chunks_eq := congrArg chunks (isNil_eq_true_iff.mp nothing)
      rw [recutWithin_succ, chunks_fan] at chunks_eq
      exact chunks_eq
    cases branches with
    | nil => rfl
    | cons chunk tag terminal below rest =>
      have listed : chunk.take _ ∈
          (cons chunk tag terminal below rest).starts cutting :=
        mem_starts.mpr ⟨chunk, List.mem_cons_self, rfl⟩
      rw [no_start] at listed
      cases listed

/-- Recutting keeps that a word ends at every leaf. -/
theorem LeavesEnd.recutWithin
    (positive : 0 < cutting.maxWidth)
    (nonempty : branches.EveryChunk (· ≠ []))
    {bound : Nat}
    (enough : branches.levelBound ≤ bound)
    (leaves : branches.LeavesEnd) :
    (branches.recutWithin cutting bound).LeavesEnd := by
  induction bound generalizing branches with
  | zero => trivial
  | succ bound hypothesis =>
    rw [recutWithin_succ, leavesEnd_fan]
    intro start listed
    have group_bound := levelBound_of_group positive nonempty enough start
    have of_start := leaves.startingWith (branches.commonWidth cutting) start
    refine ⟨?_, hypothesis (group_nonempty nonempty start) group_bound
      (of_start.advance _)⟩
    intro nothing
    obtain ⟨chunk, member, begins⟩ := mem_starts.mp listed
    exact of_start.isSome_landing (isNil_startingWith member begins)
      (isNil_eq_of_recutWithin group_bound nothing)

end

end Branches

namespace Trie

/-- What holds of every trie that can be reached. -/
structure WellFormed (trie : Trie) : Prop where
  positive : 0 < trie.maxWidth
  sorted : trie.branches.Sorted
  readable : trie.branches.EveryChunk fun chunk =>
    Chunk.ReadableWithin trie.maxWidth chunk.length
  leaves : trie.branches.LeavesEnd

theorem wellFormed_empty (maxWidth : Nat) : (empty maxWidth).WellFormed :=
  ⟨Nat.lt_of_lt_of_le Nat.one_pos (Nat.le_max_right maxWidth 1),
    trivial, trivial, trivial⟩

section

variable {trie : Trie}

theorem WellFormed.nonempty (formed : trie.WellFormed) :
    trie.branches.EveryChunk (· ≠ []) :=
  formed.readable.imp fun _ readable =>
    List.length_pos_iff.mp readable.pos

theorem WellFormed.insert
    (formed : trie.WellFormed)
    (word : Bytes)
    (enumerator : Enumerator) :
    (trie.insert word enumerator).WellFormed := by
  have width_eq : (trie.insert word enumerator).maxWidth = trie.maxWidth :=
    maxWidth_insert trie word enumerator
  refine ⟨width_eq ▸ formed.positive, ?_, ?_, ?_⟩
  · unfold Trie.insert
    split
    · exact formed.sorted
    · exact formed.sorted.insert ..
  · rw [width_eq]
    exact everyChunk_insert formed.readable enumerator fun _ =>
      Chunk.readable_of_mem_cut formed.positive
  · unfold Trie.insert
    split
    · exact formed.leaves
    · exact formed.leaves.insert ..

theorem WellFormed.ofLength?
    (formed : trie.WellFormed)
    {length : Nat}
    {restricted : Trie}
    (restriction : trie.ofLength? length = some restricted) :
    restricted.WellFormed := by
  have readable := everyChunk_ofLength? formed.readable restriction
  obtain ⟨_, _, _, rfl⟩ | ⟨_, _, rfl⟩ := ofLength?_eq_some_iff.mp restriction
  · exact ⟨formed.positive, trivial, trivial, trivial⟩
  · refine ⟨formed.positive, ?_, readable, ?_⟩
    · rw [← Branches.sorted_shape, Branches.shape_numberUpward,
        Branches.shape_unit]
      exact formed.sorted.ofLength length
    · rw [← Branches.leavesEnd_shape, Branches.shape_numberUpward,
        Branches.shape_unit]
      exact (Branches.wordsAtLeaves_ofLength _ length).leavesEnd

theorem WellFormed.recut
    (formed : trie.WellFormed)
    (ignoreCase : Bool)
    (maxWidth : Nat) :
    (trie.recut ignoreCase maxWidth).WellFormed := by
  have positive : 0 < Cutting.maxWidth ⟨ignoreCase, max maxWidth 1⟩ :=
    Nat.lt_of_lt_of_le Nat.one_pos (Nat.le_max_right maxWidth 1)
  refine ⟨positive, ?_, ?_, ?_⟩
  · rw [← Branches.sorted_shape, Trie.recut, Branches.shape_numberDownward,
      Branches.shape_unit]
    exact Branches.sorted_recutWithin _ _ _
  · rw [← Branches.everyChunk_shape, Trie.recut, Branches.shape_numberDownward,
      Branches.shape_unit]
    exact Branches.readable_recutWithin positive formed.nonempty _
  · rw [← Branches.leavesEnd_shape, Trie.recut, Branches.shape_numberDownward,
      Branches.shape_unit]
    exact formed.leaves.recutWithin positive formed.nonempty (Nat.le_refl _)

end

/-! ## Steps -/

/-- What may be done to a trie. -/
inductive Step where
  | insert (word : Bytes) (enumerator : Enumerator)
  /-- Keep the words of one length, if there are any. -/
  | restrict (length : Nat)
  | recut (ignoreCase : Bool) (maxWidth : Nat)
deriving DecidableEq, Repr

/-- A trie after one step. -/
def after (trie : Trie) : Step → Trie
  | .insert word enumerator => trie.insert word enumerator
  | .restrict length => (trie.ofLength? length).getD trie
  | .recut ignoreCase maxWidth => trie.recut ignoreCase maxWidth

/-- The trie that some steps reach from the one without words. -/
def reached (maxWidth : Nat) (steps : List Step) : Trie :=
  steps.foldl after (empty maxWidth)

theorem WellFormed.after
    {trie : Trie}
    (formed : trie.WellFormed)
    (step : Step) :
    (trie.after step).WellFormed := by
  cases step with
  | insert word enumerator => exact formed.insert word enumerator
  | restrict length =>
    rw [Trie.after]
    cases restriction : trie.ofLength? length with
    | none => exact formed
    | some restricted => exact formed.ofLength? restriction
  | recut ignoreCase maxWidth => exact formed.recut ignoreCase maxWidth

/-- Every trie that can be reached is well formed. -/
theorem wellFormed_reached (maxWidth : Nat) (steps : List Step) :
    (reached maxWidth steps).WellFormed := by
  unfold reached
  have formed := wellFormed_empty maxWidth
  generalize empty maxWidth = trie at formed
  induction steps generalizing trie with
  | nil => exact formed
  | cons step rest hypothesis => exact hypothesis _ (formed.after step)

end Trie
end WordSwitch
