import WordSwitch.Ascending
import WordSwitch.Trie.Basic

/-!
# Levels

The widths of the chunks on each level of a trie, from the root outward.
-/

namespace WordSwitch

namespace Branches

variable {ι : Type}

/-- All edges one level further down. -/
def nextLevel : Branches ι → Branches ι
  | nil => nil
  | cons _ _ _ below rest => below.append rest.nextLevel

/-- The widths on up to `bound` levels. -/
def levelWidthsWithin : (bound : Nat) → Branches ι → List (List Nat)
  | 0, _ => []
  | _ + 1, nil => []
  | bound + 1, branches =>
    ascending (branches.chunks.map List.length) ::
      levelWidthsWithin bound branches.nextLevel

/-- The distinct widths on each level, ascending. -/
def levelWidths (branches : Branches ι) : List (List Nat) :=
  levelWidthsWithin branches.size branches

end Branches

namespace Trie

/-- The distinct widths on each level below the root, ascending. -/
def levelWidths (trie : Trie) : List (List Nat) :=
  trie.branches.levelWidths

end Trie

end WordSwitch
