import WordSwitch.Proofs.Trie.Shape
import WordSwitch.Trie.Levels

/-!
# The widths on the levels

Going down level by level passes every edge, so the widths on the levels are
those of all chunks.
-/

namespace WordSwitch
namespace Branches

variable {ι : Type}

/-- The chunks on all edges, however far they are from the root. -/
def allChunks : Branches ι → List Bytes
  | nil => []
  | cons chunk _ _ below rest => chunk :: below.allChunks ++ rest.allChunks

theorem mem_allChunks_append
    {chunk : Bytes}
    {first second : Branches ι} :
    chunk ∈ (first.append second).allChunks ↔
      chunk ∈ first.allChunks ∨ chunk ∈ second.allChunks := by
  induction first with
  | nil => simp [append, allChunks]
  | cons other tag terminal below rest _ rest_iff =>
    simp only [append, allChunks, List.cons_append, List.mem_cons,
      List.mem_append, rest_iff, or_assoc]

/-- A chunk is on an edge here or further down. -/
theorem mem_allChunks_iff {chunk : Bytes} {branches : Branches ι} :
    chunk ∈ branches.allChunks ↔
      chunk ∈ branches.chunks ∨ chunk ∈ branches.nextLevel.allChunks := by
  induction branches with
  | nil => simp [allChunks, chunks, nextLevel]
  | cons other tag terminal below rest _ rest_iff =>
    rw [nextLevel, mem_allChunks_append, allChunks, List.cons_append,
      List.mem_cons, List.mem_append, rest_iff, chunks, List.mem_cons]
    grind

theorem size_nextLevel (branches : Branches ι) :
    branches.nextLevel.size + branches.chunks.length = branches.size := by
  induction branches with
  | nil => rfl
  | cons chunk tag terminal below rest _ rest_size =>
    rw [nextLevel, size_append, chunks, List.length_cons, size_cons]
    omega

/-- A bound that is large enough is still so on the next level. -/
theorem size_nextLevel_le
    {bound : Nat}
    {branches : Branches ι}
    (edges : branches.isNil = false)
    (bounded : branches.size ≤ bound + 1) :
    branches.nextLevel.size ≤ bound := by
  cases branches with
  | nil => cases edges
  | cons chunk tag terminal below rest =>
    have passed := size_nextLevel (cons chunk tag terminal below rest)
    rw [chunks, List.length_cons] at passed
    omega

theorem levelWidthsWithin_nil (bound : Nat) :
    (nil : Branches ι).levelWidthsWithin bound = [] := by
  cases bound <;> rfl

theorem levelWidthsWithin_succ
    {branches : Branches ι}
    (edges : branches.isNil = false)
    (bound : Nat) :
    branches.levelWidthsWithin (bound + 1) =
      ascending (branches.chunks.map List.length) ::
        branches.nextLevel.levelWidthsWithin bound := by
  cases branches with
  | nil => cases edges
  | cons _ _ _ _ _ => rfl

theorem mem_levelWidthsWithin
    {bound width : Nat}
    {branches : Branches ι}
    (bounded : branches.size ≤ bound) :
    width ∈ (branches.levelWidthsWithin bound).flatten ↔
      ∃ chunk ∈ branches.allChunks, chunk.length = width := by
  induction bound generalizing branches with
  | zero =>
    cases branches with
    | nil => simp [levelWidthsWithin, allChunks]
    | cons chunk tag terminal below rest => simp at bounded
  | succ bound hypothesis =>
    cases edges : branches.isNil with
    | true =>
      rw [isNil_eq_true_iff.mp edges, levelWidthsWithin_nil]
      simp [allChunks]
    | false =>
      have here_or_further := fun chunk => @mem_allChunks_iff ι chunk branches
      rw [levelWidthsWithin_succ edges, List.flatten_cons, List.mem_append,
        hypothesis (size_nextLevel_le edges bounded), mem_ascending,
        List.mem_map]
      simp only [here_or_further, or_and_right, exists_or]

/-- The widths on the levels are those of all chunks. -/
theorem mem_levelWidths {width : Nat} {branches : Branches ι} :
    width ∈ branches.levelWidths.flatten ↔
      ∃ chunk ∈ branches.allChunks, chunk.length = width :=
  mem_levelWidthsWithin (Nat.le_refl branches.size)

end Branches
end WordSwitch
