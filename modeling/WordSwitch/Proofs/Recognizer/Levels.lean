import WordSwitch.Proofs.Arena.Reached
import WordSwitch.Proofs.Arena.Walks
import WordSwitch.Proofs.Recognizer.Tries
import WordSwitch.Proofs.Trie.Depth

/-!
# Levels of arenas

The depth of an arena is measured along its edges, and the widths on its levels
are listed from one frontier to the next.  Whatever was done to the arena, there
are as many levels as the depth says, and each lists the widths of the edges
that leave the places as many edges below the root.  So the listed widths are
those of all edges, and a recognizer says whether any of them is wider than one
byte.
-/

namespace WordSwitch

namespace Arena

section

variable
  {arena : Arena}
  {trie : Trie}

/-- A level lists the widths of the edges that leave the places which as many
edges lead to. -/
theorem Represents.mem_level_iff
    (represents : arena.Represents trie)
    {level width : Nat} :
    (∃ widths, trie.levelWidths[level]? = some widths ∧ width ∈ widths) ↔
      ∃ path parent chunk child,
        arena.Walks 0 path parent ∧ path.length = level ∧
        arena.Links parent chunk child ∧ chunk.length = width := by
  rw [Trie.mem_level_iff]
  simp only [← represents.exists_walks_iff, walks_append_singleton_iff]
  constructor
  · rintro ⟨path, chunk, ⟨child, parent, walks, links⟩, rfl, rfl⟩
    exact ⟨path, parent, chunk, child, walks, rfl, links, rfl⟩
  · rintro ⟨path, parent, chunk, child, walks, rfl, links, rfl⟩
    exact ⟨path, chunk, ⟨child, parent, walks, links⟩, rfl, rfl⟩

/-- The widths on all levels are those of all edges. -/
theorem Represents.mem_levelWidths_iff
    (represents : arena.Represents trie)
    (linked : arena.WellLinked)
    {width : Nat} :
    width ∈ trie.levelWidths.flatten ↔
      ∃ parent chunk child,
        arena.Links parent chunk child ∧ chunk.length = width := by
  constructor
  · intro listed
    obtain ⟨widths, inLevels, inWidths⟩ := List.mem_flatten.mp listed
    obtain ⟨level, at_level⟩ := List.mem_iff_getElem?.mp inLevels
    obtain ⟨_, parent, chunk, child, _, _, links, width_eq⟩ :=
      represents.mem_level_iff.mp ⟨widths, at_level, inWidths⟩
    exact ⟨parent, chunk, child, links, width_eq⟩
  · rintro ⟨parent, chunk, child, links, width_eq⟩
    have within : parent < arena.nodes.length := by
      obtain ⟨_, at_parent, _⟩ := links
      exact (List.getElem?_eq_some_iff.mp at_parent).1
    obtain ⟨path, walks⟩ := linked.exists_walks within
    obtain ⟨widths, at_level, inWidths⟩ := represents.mem_level_iff.mpr
      ⟨path, parent, chunk, child, walks, rfl, links, width_eq⟩
    exact List.mem_flatten.mpr
      ⟨widths, List.mem_of_getElem? at_level, inWidths⟩

/-- Some edge is wider than a bound exactly if some listed width is. -/
theorem Represents.exists_wider_iff
    (represents : arena.Represents trie)
    (linked : arena.WellLinked)
    {bound : Nat} :
    (∃ width ∈ trie.levelWidths.flatten, bound < width) ↔
      ∃ parent chunk child,
        arena.Links parent chunk child ∧ bound < chunk.length := by
  constructor
  · rintro ⟨width, listed, wider⟩
    obtain ⟨parent, chunk, child, links, rfl⟩ :=
      (represents.mem_levelWidths_iff linked).mp listed
    exact ⟨parent, chunk, child, links, wider⟩
  · rintro ⟨parent, chunk, child, links, wider⟩
    exact ⟨chunk.length, (represents.mem_levelWidths_iff linked).mpr
      ⟨parent, chunk, child, links, rfl⟩, wider⟩

end

end Arena

namespace Recognizer

theorem usesMultiByte_eq_true_iff {recognizer : Recognizer} :
    recognizer.usesMultiByte = true ↔
      ∃ length trie, (length, trie) ∈ recognizer.tries ∧
        ∃ width ∈ trie.levelWidths.flatten, 1 < width := by
  simp only [usesMultiByte, List.any_eq_true, decide_eq_true_eq, Prod.exists]

end Recognizer

namespace Lexicon

/-- The tries of a recognizer are reached by insertions, a restriction and a
recutting. -/
theorem exists_reached_of_mem_lengthTries
    {lexicon : Lexicon}
    {config : RecognizerConfig}
    {length : Nat}
    {trie : Trie}
    (listed : (length, trie) ∈ lexicon.lengthTries config) :
    ∃ steps, trie = Trie.reached config.widthLimit steps := by
  obtain ⟨_, restricted, restriction, rfl⟩ := mem_lengthTries.mp listed
  let insertions : List Trie.Step := lexicon.entries.map fun entry =>
    .insert (config.key entry.word) entry.enumerator
  have base_eq : lexicon.baseTrie config =
      Trie.reached config.widthLimit insertions := by
    rw [baseTrie, Trie.reached, List.foldl_map]
    rfl
  refine ⟨insertions ++
    [.restrict length, .recut config.ignoreCase config.widthLimit], ?_⟩
  rw [Trie.reached, List.foldl_append, ← Trie.reached, ← base_eq]
  simp [Trie.after, restriction, RecognizerConfig.recut]

end Lexicon

namespace Arena

/-- Every arena that can be reached has as many levels as its depth says.  Each
lists the widths of the edges that leave the places as many edges below the
root, ascending, and there are some.  A recognizer uses several bytes at once
exactly if an edge of one of its arenas, which are reached too, is wider than
one byte. -/
theorem levels_of_reached (maxWidth : Nat) (steps : List Trie.Step) :
    let trie := Trie.reached maxWidth steps
    let arena := ofTrie trie
    EndsWith (reached maxWidth steps) arena ∧
    EndsWith arena.depth trie.depth ∧
    EndsWith arena.levelWidths trie.levelWidths ∧
    trie.depth = trie.levelWidths.length ∧
    (∀ widths ∈ trie.levelWidths, widths ≠ [] ∧ widths.Pairwise (· < ·)) ∧
    (∀ level width,
      (∃ widths, trie.levelWidths[level]? = some widths ∧ width ∈ widths) ↔
        ∃ path parent chunk child,
          arena.Walks 0 path parent ∧ path.length = level ∧
          arena.Links parent chunk child ∧ chunk.length = width) ∧
    ∀ (lexicon : Lexicon) (config : RecognizerConfig) (recognizer : Recognizer),
      lexicon.recognizer config = .ok recognizer →
      (∀ length other, (length, other) ∈ recognizer.tries →
        ∃ further, other = Trie.reached config.widthLimit further) ∧
      (recognizer.usesMultiByte = true ↔
        ∃ length other, (length, other) ∈ recognizer.tries ∧
          ∃ parent chunk child,
            (ofTrie other).Links parent chunk child ∧ 1 < chunk.length) := by
  intro trie arena
  obtain ⟨ends, represents⟩ := represents_reached maxWidth steps
  refine ⟨ends, represents.depth, represents.levelWidths,
    trie.length_levelWidths.symm, fun _ => Branches.of_mem_levelWidthsWithin,
    fun _ _ => represents.mem_level_iff, ?_⟩
  intro lexicon config recognizer built
  obtain ⟨_, _, rfl⟩ := Lexicon.recognizer_eq_ok_iff.mp built
  have all_reached : ∀ length other,
      (length, other) ∈ lexicon.lengthTries config →
        ∃ further, other = Trie.reached config.widthLimit further :=
    fun _ _ => Lexicon.exists_reached_of_mem_lengthTries
  refine ⟨all_reached, Recognizer.usesMultiByte_eq_true_iff.trans ?_⟩
  refine exists_congr fun length => exists_congr fun other =>
    and_congr_right fun listed => ?_
  obtain ⟨further, rfl⟩ := all_reached length other listed
  have represented := (represents_reached config.widthLimit further).2
  exact represented.exists_wider_iff
    (represented.wellLinked (Trie.wellFormed_reached _ _))

/-- Words of which the shorter one is cut into `[2, 1]` bytes, and the longer
one into `[4, 2, 1]`. -/
def mixedWidthDeclarations : List Declaration :=
  [.entry [97, 98, 99, 100, 101, 102, 45] "Long" none,
    .entry [97, 98, 45] "Short" none]

theorem levels_of_reached_mixedWidths :
    let trie := Trie.reached 4
      [.insert [97, 98, 99, 100, 101, 102, 45] ⟨"Long", 0⟩,
        .insert [97, 98, 45] ⟨"Short", 1⟩]
    trie.levelWidths = [[2, 4], [1, 2], [1]] ∧ trie.depth = 3 ∧
    ∃ recognizer,
      (Lexicon.after mixedWidthDeclarations).recognizer ⟨true, true, 4⟩ =
        .ok recognizer ∧
      recognizer.usesMultiByte = true ∧
      ∃ length other, (length, other) ∈ recognizer.tries ∧
        ∃ parent chunk child,
          (ofTrie other).Links parent chunk child ∧ 1 < chunk.length := by
  intro trie
  let config : RecognizerConfig := ⟨true, true, 4⟩
  let lexicon := Lexicon.after mixedWidthDeclarations
  let recognizer : Recognizer :=
    ⟨true, 4, lexicon.lengthTries config, lexicon.fallback⟩
  have built : lexicon.recognizer config = .ok recognizer := rfl
  have wide : recognizer.usesMultiByte = true := by decide
  have widths_eq : trie.levelWidths = [[2, 4], [1, 2], [1]] := by decide
  obtain ⟨_, _, _, depth_eq, _, _, compiled⟩ := levels_of_reached 4
    [.insert [97, 98, 99, 100, 101, 102, 45] ⟨"Long", 0⟩,
      .insert [97, 98, 45] ⟨"Short", 1⟩]
  have uses := (compiled lexicon config recognizer built).2
  exact ⟨widths_eq, by rw [depth_eq, widths_eq]; rfl,
    recognizer, built, wide, uses.mp wide⟩

end Arena
end WordSwitch
