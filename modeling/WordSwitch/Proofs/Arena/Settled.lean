import WordSwitch.Proofs.Arena.Kept
import WordSwitch.Proofs.Trie.Settled

/-!
# Recutting arenas again

Recutting an arena a second time changes nothing, not even the places of its
nodes.  If case is kept, recutting the words of one length with the width that
they were inserted with only moves the nodes: the chunks and terminals stay, and
every node comes before the nodes below it.
-/

namespace WordSwitch

namespace Branches

/-- Numbering downward gives the nodes consecutive numbers. -/
theorem numbers_numberDownward
    {ι : Type}
    (branches : Branches ι)
    (next : Nat) :
    (branches.numberDownward next).nodes.map (·.number) =
      List.range' next branches.size := by
  induction branches generalizing next with
  | nil => rfl
  | cons chunk tag terminal below rest below_numbers rest_numbers =>
    have parts : (cons chunk tag terminal below rest).size =
        1 + (below.size + rest.size) := by
      rw [size_cons]
      omega
    rw [numberDownward, nodes_cons, nodesBelow, List.cons_append,
      List.map_cons, List.map_append, below_numbers, rest_numbers, parts,
      ← List.range'_append_1, ← List.range'_append_1]
    rfl

end Branches

namespace Arena

/-- Every arena that can be reached and is recut stays the same, node for node,
if it is recut in the same way again. -/
theorem recut_recut_of_reached
    (maxWidth : Nat)
    (steps : List Trie.Step)
    (ignoreCase : Bool)
    (width : Nat) :
    let trie := (Trie.reached maxWidth steps).recut ignoreCase width
    trie.recut ignoreCase width = trie ∧
    ∃ arena once,
      EndsWith (reached maxWidth steps) arena ∧
      EndsWith (arena.recut ignoreCase width) once ∧
      EndsWith (once.recut ignoreCase width) once := by
  intro trie
  have formed := Trie.wellFormed_reached maxWidth steps
  have fixed : trie.recut ignoreCase width = trie :=
    formed.recut_recut ignoreCase width
  obtain ⟨ends, represents⟩ := represents_reached maxWidth steps
  obtain ⟨once, once_ends, onceRepresents⟩ :=
    represents.recut formed.nonempty ignoreCase width
  obtain ⟨twice, twice_ends, twiceRepresents⟩ :=
    onceRepresents.recut (formed.recut ignoreCase width).nonempty ignoreCase
      width
  have same : twice = once := by
    rw [twiceRepresents.eq_ofTrie, onceRepresents.eq_ofTrie]
    exact congrArg ofTrie fixed
  exact ⟨fixed, _, once, ends, once_ends, same ▸ twice_ends⟩

/-- If case is kept, recutting the words of one length with the width of the
insertions keeps chunks and terminals everywhere, and numbers the nodes in the
order in which they stand, chunks ascending. -/
theorem recut_restricted
    (maxWidth : Nat)
    (insertions : List Spelling)
    {length : Nat}
    {restricted : Trie}
    (restriction :
      (Trie.ofInsertions maxWidth insertions).ofLength? length =
        some restricted) :
    let again := restricted.recut false maxWidth
    EndsWith ((ofTrie restricted).recut false maxWidth) (ofTrie again) ∧
    again.maxWidth = restricted.maxWidth ∧
    again.terminal = restricted.terminal ∧
    again.branches.shape = restricted.branches.shape ∧
    again.size = restricted.size ∧
    again.branches.Sorted ∧
    (again.root :: again.branches.nodes).map (·.number) =
      List.range again.size := by
  intro again
  have formed := Trie.wellFormed_ofInsertions maxWidth insertions
  have width_eq := Trie.maxWidth_ofInsertions maxWidth insertions
  have settled := (Trie.canonical_ofInsertions maxWidth
    insertions).settled_of_ofLength? formed.positive restriction
  rw [width_eq] at settled
  have again_eq : again = ⟨max maxWidth 1, restricted.terminal,
      restricted.branches.numberDownward 1⟩ := Trie.recut_of_settled settled
  obtain ⟨_, represents⟩ := represents_ofInsertions maxWidth insertions
  have restricts := represents.ofLength formed.positive formed.sorted length
  rw [restriction] at restricts
  obtain ⟨copy, _, copyRepresents⟩ := restricts
  obtain ⟨cut, cut_ends, cutRepresents⟩ :=
    copyRepresents.recut (formed.ofLength? restriction).nonempty false maxWidth
  refine ⟨?_, ?_, ?_, ?_, ?_, ?_, ?_⟩
  · rw [← copyRepresents.eq_ofTrie, ← cutRepresents.eq_ofTrie]
    exact cut_ends
  · rw [again_eq, Trie.maxWidth_ofLength? restriction, width_eq]
  · rw [again_eq]
  · rw [again_eq, Branches.shape_numberDownward]
  · rw [again_eq, Trie.size, Branches.size_numberDownward, Trie.size]
  · exact ((formed.ofLength? restriction).recut false maxWidth).sorted
  · rw [again_eq, List.map_cons, Branches.numbers_numberDownward, Trie.size,
      Branches.size_numberDownward, List.range_eq_range', Nat.add_comm _ 1,
      ← List.range'_append_1]
    rfl

/-- Two words of length four, inserted between others on the same way. -/
def crossingInsertions : List Spelling :=
  [([97, 98, 99, 100], ⟨"First", 1⟩), ([97, 98], ⟨"Short", 2⟩),
    ([97, 120, 121, 122], ⟨"Second", 3⟩), ([97, 98, 99], ⟨"Middle", 4⟩)]

/-- The words of length four, every node numbered after the nodes below it. -/
def crossingRestricted : Trie :=
  ⟨3, none,
    .cons [97, 98] 2 none (.cons [99, 100] 1 (some ⟨"First", 1⟩) .nil .nil)
      (.cons [97, 120] 4 none
        (.cons [121, 122] 3 (some ⟨"Second", 3⟩) .nil .nil) .nil)⟩

theorem recut_restricted_crossingInsertions :
    let again := crossingRestricted.recut false 3
    (Trie.ofInsertions 3 crossingInsertions).ofLength? 4 =
      some crossingRestricted ∧
    again.branches.shape = crossingRestricted.branches.shape ∧
    (again.root :: again.branches.nodes).map (·.number) = [0, 1, 2, 3, 4] := by
  intro again
  have restriction : (Trie.ofInsertions 3 crossingInsertions).ofLength? 4 =
      some crossingRestricted := by decide
  obtain ⟨_, _, _, shape_eq, size_eq, _, numbers_eq⟩ :=
    recut_restricted 3 crossingInsertions restriction
  refine ⟨restriction, shape_eq, ?_⟩
  rw [numbers_eq, size_eq]
  decide

end Arena
end WordSwitch
