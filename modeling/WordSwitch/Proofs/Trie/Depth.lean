import WordSwitch.Proofs.Ascending
import WordSwitch.Proofs.Trie.Levels
import WordSwitch.Proofs.Trie.NodePaths

/-!
# Depth and levels

Going down level by level takes as many steps as the longest path has edges.
Each level lists the widths of the last chunks of all paths with one edge more
than were passed before, ascending, and there is at least one.
-/

namespace WordSwitch
namespace Branches

variable {ι : Type}

theorem depth_append (branches others : Branches ι) :
    (branches.append others).depth = max branches.depth others.depth := by
  induction branches with
  | nil => rw [append, depth_nil, Nat.zero_max]
  | cons chunk tag terminal below rest _ rest_depth =>
    rw [append, depth_cons, depth_cons, rest_depth, Nat.max_assoc]

/-- Each level is one of the edges on the longest path. -/
theorem depth_eq_succ
    {branches : Branches ι}
    (edges : branches.isNil = false) :
    branches.depth = branches.nextLevel.depth + 1 := by
  induction branches with
  | nil => cases edges
  | cons chunk tag terminal below rest _ rest_depth =>
    rw [depth_cons, nextLevel, depth_append]
    cases rest_edges : rest.isNil with
    | true =>
      rw [isNil_eq_true_iff.mp rest_edges]
      simp [nextLevel]
    | false =>
      rw [rest_depth rest_edges]
      omega

theorem length_levelWidthsWithin
    {bound : Nat}
    {branches : Branches ι}
    (bounded : branches.size ≤ bound) :
    (branches.levelWidthsWithin bound).length = branches.depth := by
  -- The induction is on the bound, as every level passes at least one edge.
  induction bound generalizing branches with
  | zero =>
    cases branches with
    | nil => rfl
    | cons _ _ _ _ _ => simp at bounded
  | succ bound hypothesis =>
    cases edges : branches.isNil with
    | true =>
      rw [isNil_eq_true_iff.mp edges, levelWidthsWithin_nil]
      rfl
    | false =>
      rw [levelWidthsWithin_succ edges, List.length_cons,
        hypothesis (size_nextLevel_le edges bounded), depth_eq_succ edges]

/-- Every level lists some widths, in ascending order. -/
theorem of_mem_levelWidthsWithin
    {bound : Nat}
    {branches : Branches ι}
    {widths : List Nat}
    (listed : widths ∈ branches.levelWidthsWithin bound) :
    widths ≠ [] ∧ widths.Pairwise (· < ·) := by
  induction bound generalizing branches with
  | zero => cases listed
  | succ bound hypothesis =>
    cases branches with
    | nil => cases listed
    | cons chunk tag terminal below rest =>
      rcases List.mem_cons.mp listed with rfl | further
      · have first : chunk.length ∈ ascending
            ((cons chunk tag terminal below rest).chunks.map List.length) := by
          simp [chunks]
        exact ⟨List.ne_nil_of_mem first, pairwise_ascending _⟩
      · exact hypothesis further

/-- The widths on a level are those of the edges that as many edges lead to. -/
theorem mem_level_iff
    {bound level width : Nat}
    {branches : Branches ι}
    (bounded : branches.size ≤ bound) :
    (∃ widths, (branches.levelWidthsWithin bound)[level]? = some widths ∧
      width ∈ widths) ↔
      ∃ path chunk, path ++ [chunk] ∈ branches.paths ∧
        path.length = level ∧ chunk.length = width := by
  induction bound generalizing branches level with
  | zero =>
    cases branches with
    | nil => simp [levelWidthsWithin, paths]
    | cons _ _ _ _ _ => simp at bounded
  | succ bound hypothesis =>
    cases edges : branches.isNil with
    | true =>
      rw [isNil_eq_true_iff.mp edges, levelWidthsWithin_nil]
      simp [paths]
    | false =>
      rw [levelWidthsWithin_succ edges]
      cases level with
      | zero =>
        simp [singleton_mem_paths]
      | succ level =>
        rw [List.getElem?_cons_succ,
          hypothesis (size_nextLevel_le edges bounded)]
        simp only [mem_paths_nextLevel]
        constructor
        · rintro ⟨path, chunk, ⟨_, first, listed⟩, rfl, rfl⟩
          exact ⟨first :: path, chunk, listed, rfl, rfl⟩
        · rintro ⟨path, chunk, listed, path_length, rfl⟩
          cases path with
          | nil => cases path_length
          | cons first path =>
            exact ⟨path, chunk, ⟨by simp, first, listed⟩,
              Nat.succ.inj path_length, rfl⟩

end Branches

namespace Trie

/-- There are as many levels as edges on the longest path. -/
theorem length_levelWidths (trie : Trie) :
    trie.levelWidths.length = trie.depth :=
  Branches.length_levelWidthsWithin (Nat.le_refl _)

theorem mem_level_iff {trie : Trie} {level width : Nat} :
    (∃ widths, trie.levelWidths[level]? = some widths ∧ width ∈ widths) ↔
      ∃ path chunk, path ++ [chunk] ∈ trie.paths ∧
        path.length = level ∧ chunk.length = width := by
  rw [levelWidths, Branches.levelWidths,
    Branches.mem_level_iff (Nat.le_refl _)]
  simp [paths]

end Trie
end WordSwitch
