import Mathlib.Data.List.Nodup
import Mathlib.Logic.Relation
import WordSwitch.Proofs.Arena.Storage
import WordSwitch.Proofs.Trie.Reached

/-!
# Well linked arenas

An arena is well linked if its edges make a tree of all its nodes: every edge
leads to a node, every node but the root is led to by one edge of one node, and
all are reached from the root.  The arena of a trie is well linked, because the
nodes of the trie are distinct and each stands below one edge.
-/

namespace WordSwitch

namespace Arena

/-- The node at a place has an edge that leads to another place. -/
def Links
    (arena : Arena)
    (parent : Nat)
    (chunk : Bytes)
    (child : Nat) :
    Prop :=
  ∃ node, arena.nodes[parent]? = some node ∧ (chunk, child) ∈ node.edges

/-- Some edge leads from one place to another. -/
def LinksTo (arena : Arena) (parent child : Nat) : Prop :=
  ∃ chunk, arena.Links parent chunk child

/-- The edges make a tree of all nodes. -/
structure WellLinked (arena : Arena) : Prop where
  /-- There is a root. -/
  root : 0 < arena.nodes.length
  /-- Every edge leads to a node. -/
  valid : ∀ parent chunk child, arena.Links parent chunk child →
    child < arena.nodes.length
  /-- Every node but the root is led to by one edge of one node. -/
  linkedOnce : ∀ place, 0 < place → place < arena.nodes.length →
    ∃! link : Nat × Bytes, arena.Links link.1 link.2 place
  /-- No edge leads to the root. -/
  rootFree : ∀ parent chunk, ¬arena.Links parent chunk 0
  /-- Every node is reached from the root. -/
  reachable : ∀ place, place < arena.nodes.length →
    Relation.ReflTransGen arena.LinksTo 0 place
  /-- Every chunk can be read at once. -/
  chunks : ∀ parent chunk child, arena.Links parent chunk child →
    chunk ≠ [] ∧ chunk.length ≤ arena.maxWidth ∧
      ∃ exponent, chunk.length = 2 ^ exponent
  /-- The chunks that leave a node ascend. -/
  ordered : ∀ (place : Nat) (node : Node), arena.nodes[place]? = some node →
    node.chunks.Pairwise (· < ·)
  /-- A word ends at every leaf but the root. -/
  leaves : ∀ (place : Nat) (node : Node), 0 < place →
    arena.nodes[place]? = some node →
      node.isLeaf = true → node.terminal.isSome = true

end Arena

namespace Branches

/-! ## Edges and nodes -/

/-- The places that the edges of some nodes lead to. -/
def targets (nodes : List Node) : List Nat :=
  nodes.flatMap fun node => node.edges.map (·.2)

/-- Each node that branches hold is led to by one edge. -/
theorem perm_targets (branches : Branches Nat) :
    (branches.edges.map (·.2) ++ targets branches.nodes).Perm
      (branches.nodes.map (·.number)) := by
  induction branches with
  | nil => exact List.Perm.refl _
  | cons chunk tag terminal below rest below_perm rest_perm =>
    have node_targets : targets (below.nodesBelow tag terminal) =
        below.edges.map (·.2) ++ targets below.nodes := by
      rw [nodesBelow, targets, List.flatMap_cons, ← targets]
    have split_targets : targets (cons chunk tag terminal below rest).nodes =
        targets (below.nodesBelow tag terminal) ++ targets rest.nodes := by
      rw [nodes_cons, targets, List.flatMap_append, ← targets, ← targets]
    rw [split_targets, node_targets, edges, nodes_cons, List.map_cons,
      List.map_append, nodesBelow, List.map_cons, List.cons_append,
      List.cons_append]
    refine List.Perm.cons tag ?_
    exact (List.perm_append_comm_assoc _ _ _).trans
      (below_perm.append rest_perm)

/-- What holds of every node that branches hold. -/
theorem of_mem_nodes_of_leavesEnd
    {property : Bytes → Prop}
    {branches : Branches Nat}
    (sorted : branches.Sorted)
    (every : branches.EveryChunk property)
    (leaves : branches.LeavesEnd)
    {node : Node}
    (listed : node ∈ branches.nodes) :
    node.chunks.Pairwise (· < ·) ∧ (∀ chunk ∈ node.chunks, property chunk) ∧
      (node.isLeaf = true → node.terminal.isSome = true) := by
  obtain ⟨_, _, _, below, _, ⟨edgeSorted, edgeEvery, edgeLeaves⟩, rfl⟩ :=
    exists_edge_of_mem_nodes
      (motive := fun inner =>
        inner.Sorted ∧ inner.EveryChunk property ∧ inner.LeavesEnd)
      (fun _ _ _ _ _ ⟨⟨_, belowSorted, restSorted⟩,
          ⟨_, belowEvery, restEvery⟩, ⟨_, belowLeaves, restLeaves⟩⟩ =>
        ⟨⟨belowSorted, belowEvery, belowLeaves⟩,
          restSorted, restEvery, restLeaves⟩)
      ⟨sorted, every, leaves⟩ listed
  rw [Node.chunks, map_fst_edges, Node.isLeaf, isEmpty_edges]
  exact ⟨pairwise_chunks edgeSorted.2.1,
    fun _ => edgeEvery.2.1.of_mem_chunks, edgeLeaves.1⟩

/-- All nodes of branches are reached from the node above. -/
theorem FoundIn.reachable
    {arena : Arena}
    {branches : Branches Nat}
    (found : branches.FoundIn arena.nodes)
    {place : Nat}
    {parent : Node}
    (at_place : arena.nodes[place]? = some parent)
    (leads : ∀ edge ∈ branches.edges, edge ∈ parent.edges)
    {node : Node}
    (listed : node ∈ branches.nodes) :
    Relation.ReflTransGen arena.LinksTo place node.number := by
  induction branches generalizing place parent with
  | nil => cases listed
  | cons chunk tag terminal below rest below_reachable rest_reachable =>
    have first : arena.LinksTo place tag :=
      ⟨chunk, parent, at_place, leads _ List.mem_cons_self⟩
    rw [nodes_cons, nodesBelow, List.cons_append, List.mem_cons,
      List.mem_append] at listed
    rcases listed with rfl | inBelow | inRest
    · exact Relation.ReflTransGen.single first
    · exact Relation.ReflTransGen.head first
        (below_reachable found.below found.here (fun _ => id) inBelow)
    · exact rest_reachable found.rest at_place
        (fun edge inEdges => leads edge (List.mem_cons_of_mem _ inEdges))
        inRest

end Branches

namespace Arena

open Branches

/-- All edges, each with the places that it leads from and to. -/
def allLinks (arena : Arena) : List ((Nat × Bytes) × Nat) :=
  arena.nodes.flatMap fun node =>
    node.edges.map fun edge => ((node.number, edge.1), edge.2)

section

variable
  {arena : Arena}
  {trie : Trie}

theorem Represents.mem_allLinks
    (represents : arena.Represents trie)
    {parent : Nat}
    {chunk : Bytes}
    {child : Nat} :
    ((parent, chunk), child) ∈ arena.allLinks ↔
      arena.Links parent chunk child := by
  rw [allLinks, List.mem_flatMap]
  constructor
  · rintro ⟨node, listed, inEdges⟩
    obtain ⟨⟨key, target⟩, edge_mem, equal⟩ := List.mem_map.mp inEdges
    cases equal
    have held := represents.stores.perm.mem_iff.mp listed
    exact ⟨node, represents.stores.getElem?_number held, edge_mem⟩
  · rintro ⟨node, found, edge_mem⟩
    refine ⟨node, List.mem_of_getElem? found, ?_⟩
    rw [← represents.stores.number_eq found]
    exact List.mem_map.mpr ⟨(chunk, child), edge_mem, rfl⟩

/-- The edges lead to each node but the root once. -/
theorem Represents.perm_allLinks (represents : arena.Represents trie) :
    (0 :: arena.allLinks.map (·.2)).Perm
      (List.range arena.nodes.length) := by
  have links_eq : arena.allLinks.map (·.2) = targets arena.nodes := by
    rw [allLinks, targets, List.map_flatMap]
    simp only [List.map_map, Function.comp_def]
  rw [links_eq, ← represents.stores.numbers]
  have targets_perm : (targets arena.nodes).Perm
      (targets (trie.branches.nodesBelow 0 trie.terminal)) :=
    represents.stores.perm.flatMap_right _
  refine (targets_perm.cons 0).trans ?_
  refine List.Perm.trans ?_ (represents.stores.perm.map _).symm
  exact (perm_targets trie.branches).cons 0

theorem Represents.linkedOnce
    (represents : arena.Represents trie)
    {place : Nat}
    (further : 0 < place)
    (within : place < arena.nodes.length) :
    ∃! link : Nat × Bytes, arena.Links link.1 link.2 place := by
  have perm := represents.perm_allLinks
  have distinct : (arena.allLinks.map (·.2)).Nodup :=
    (List.nodup_cons.mp (perm.nodup_iff.mpr List.nodup_range)).2
  have led : place ∈ arena.allLinks.map (·.2) := by
    have listed := perm.mem_iff.mpr (List.mem_range.mpr within)
    exact (List.mem_cons.mp listed).resolve_left (Nat.ne_of_gt further)
  obtain ⟨⟨⟨parent, chunk⟩, child⟩, linked, rfl⟩ := List.mem_map.mp led
  refine ⟨(parent, chunk), represents.mem_allLinks.mp linked, ?_⟩
  rintro ⟨other, otherChunk⟩ otherLinks
  have same := List.inj_on_of_nodup_map distinct
    (represents.mem_allLinks.mpr otherLinks) linked rfl
  exact congrArg Prod.fst same

/-- What stands at a place: the root, or a node that the branches hold. -/
theorem Represents.of_getElem?
    (represents : arena.Represents trie)
    {place : Nat}
    {node : Node}
    (found : arena.nodes[place]? = some node) :
    (place = 0 ∧ node = ⟨0, trie.terminal, trie.branches.edges⟩) ∨
      node ∈ trie.branches.nodes := by
  have number_eq := represents.stores.number_eq found
  have listed := represents.stores.perm.mem_iff.mp (List.mem_of_getElem? found)
  rcases List.mem_cons.mp listed with rfl | further
  · exact Or.inl ⟨number_eq.symm, rfl⟩
  · exact Or.inr further

theorem Represents.chunks_of_getElem?
    (represents : arena.Represents trie)
    (formed : trie.WellFormed)
    {place : Nat}
    {node : Node}
    (found : arena.nodes[place]? = some node) :
    node.chunks.Pairwise (· < ·) ∧
      ∀ chunk ∈ node.chunks,
        Chunk.ReadableWithin trie.maxWidth chunk.length := by
  rcases represents.of_getElem? found with ⟨_, rfl⟩ | further
  · rw [Node.chunks, map_fst_edges]
    exact ⟨pairwise_chunks formed.sorted,
      fun _ => formed.readable.of_mem_chunks⟩
  · obtain ⟨ascends, readable, _⟩ := of_mem_nodes_of_leavesEnd formed.sorted
      formed.readable formed.leaves further
    exact ⟨ascends, readable⟩

/-- The arena of a well formed trie is well linked. -/
theorem Represents.wellLinked
    (represents : arena.Represents trie)
    (formed : trie.WellFormed) :
    arena.WellLinked := by
  have perm := represents.perm_allLinks
  have led : ∀ parent chunk child, arena.Links parent chunk child →
      child ∈ arena.allLinks.map (·.2) :=
    fun parent chunk child links =>
      List.mem_map_of_mem (represents.mem_allLinks.mpr links)
  refine ⟨?_, ?_, fun _ => represents.linkedOnce, ?_, ?_, ?_, ?_, ?_⟩
  · rw [represents.length_nodes]
    exact Nat.succ_pos _
  · intro parent chunk child links
    exact List.mem_range.mp
      (perm.mem_iff.mp (List.mem_cons_of_mem 0 (led _ _ _ links)))
  · intro parent chunk links
    have distinct := perm.nodup_iff.mpr List.nodup_range
    exact (List.nodup_cons.mp distinct).1 (led _ _ _ links)
  · intro place within
    have found := List.getElem?_eq_getElem within
    rcases represents.of_getElem? found with ⟨rfl, _⟩ | further
    · exact Relation.ReflTransGen.refl
    · rw [← represents.stores.number_eq found]
      exact represents.foundIn.reachable represents.root (fun _ => id) further
  · rintro parent chunk child ⟨node, found, edge_mem⟩
    have readable := (represents.chunks_of_getElem? formed found).2 chunk
      (List.mem_map_of_mem edge_mem)
    rw [represents.maxWidth_eq]
    exact ⟨List.length_pos_iff.mp readable.pos, readable⟩
  · exact fun place node found =>
      (represents.chunks_of_getElem? formed found).1
  · intro place node further found leaf
    rcases represents.of_getElem? found with ⟨rfl, _⟩ | listed
    · exact absurd further (Nat.lt_irrefl 0)
    · exact (of_mem_nodes_of_leavesEnd formed.sorted formed.readable
        formed.leaves listed).2.2 leaf

end

end Arena
end WordSwitch
