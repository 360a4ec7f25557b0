import Mathlib.Data.List.Perm.Basic
import WordSwitch.Proofs.Arena.Basic
import WordSwitch.Proofs.Trie.Shape

/-!
# Nodes at their places

The nodes that branches hold name each other by number.  A list stores such
nodes if it consists of exactly these and each stands at the place of its
number.  Then a node is found at its number, a new node gets a number that no
other has, and changing the node at a place changes no other.
-/

namespace WordSwitch

namespace Branches

/-- A node above branches, and the nodes that these hold. -/
def nodesBelow
    (branches : Branches Nat)
    (number : Nat)
    (terminal : Option Enumerator) :
    List Node :=
  ⟨number, terminal, branches.edges⟩ :: branches.nodes

theorem nodes_cons
    (chunk : Bytes)
    (tag : Nat)
    (terminal : Option Enumerator)
    (below rest : Branches Nat) :
    (cons chunk tag terminal below rest).nodes =
      below.nodesBelow tag terminal ++ rest.nodes := by
  rw [nodes, nodesBelow, List.cons_append]

theorem nodes_append (branches others : Branches Nat) :
    (branches.append others).nodes = branches.nodes ++ others.nodes := by
  induction branches with
  | nil => rfl
  | cons chunk tag terminal below rest _ rest_nodes =>
    rw [append, nodes_cons, nodes_cons, rest_nodes, List.append_assoc]

@[simp] theorem length_nodes (branches : Branches Nat) :
    branches.nodes.length = branches.size := by
  induction branches with
  | nil => rfl
  | cons chunk tag terminal below rest below_length rest_length =>
    rw [nodes_cons, List.length_append, nodesBelow, List.length_cons,
      below_length, rest_length, size_cons]
    omega

/-- Every node that branches hold is found at its number. -/
def FoundIn (nodes : List Node) (branches : Branches Nat) : Prop :=
  ∀ node ∈ branches.nodes, nodes[node.number]? = some node

section

variable
  {nodes : List Node}
  {chunk : Bytes}
  {tag : Nat}
  {terminal : Option Enumerator}
  {inner others : Branches Nat}

theorem FoundIn.here
    (found : (cons chunk tag terminal inner others).FoundIn nodes) :
    nodes[tag]? = some ⟨tag, terminal, inner.edges⟩ :=
  found _ List.mem_cons_self

theorem FoundIn.below
    (found : (cons chunk tag terminal inner others).FoundIn nodes) :
    inner.FoundIn nodes := by
  intro node listed
  refine found node ?_
  rw [nodes_cons]
  exact List.mem_append_left _ (List.mem_cons_of_mem _ listed)

theorem FoundIn.rest
    (found : (cons chunk tag terminal inner others).FoundIn nodes) :
    others.FoundIn nodes := by
  intro node listed
  refine found node ?_
  rw [nodes_cons]
  exact List.mem_append_right _ listed

end

end Branches

namespace Arena

open Branches

/-- A list of nodes consists of the given ones, each at the place of its
number. -/
structure Stores (nodes held : List Node) : Prop where
  perm : nodes.Perm held
  numbers : nodes.map (·.number) = List.range nodes.length

section

variable {nodes held : List Node}

theorem Stores.of_perm
    (stores : Stores nodes held)
    {others : List Node}
    (perm : held.Perm others) :
    Stores nodes others :=
  ⟨stores.perm.trans perm, stores.numbers⟩

theorem Stores.length_eq (stores : Stores nodes held) :
    nodes.length = held.length :=
  stores.perm.length_eq

theorem Stores.number_eq
    (stores : Stores nodes held)
    {place : Nat}
    {node : Node}
    (found : nodes[place]? = some node) :
    node.number = place := by
  have numbered : (nodes.map (·.number))[place]? = some node.number := by
    rw [List.getElem?_map, found, Option.map_some]
  rw [stores.numbers] at numbered
  obtain ⟨_, equal⟩ := List.getElem?_eq_some_iff.mp numbered
  rw [← equal, List.getElem_range]

/-- A node is found at its number. -/
theorem Stores.getElem?_number
    (stores : Stores nodes held)
    {node : Node}
    (listed : node ∈ held) :
    nodes[node.number]? = some node := by
  obtain ⟨place, found⟩ :=
    List.mem_iff_getElem?.mp (stores.perm.mem_iff.mpr listed)
  rw [stores.number_eq found]
  exact found

theorem stores_bare : Stores [Node.bare 0] [Node.bare 0] :=
  ⟨List.Perm.refl _, rfl⟩

/-- A new node gets the next number. -/
theorem Stores.append (stores : Stores nodes held) :
    Stores (append nodes) (Node.bare nodes.length :: held) := by
  constructor
  · exact (List.perm_append_singleton _ _).trans (stores.perm.cons _)
  · rw [Arena.append, List.map_append, List.length_append, stores.numbers,
      List.length_singleton, List.range_succ]
    rfl

/-- The node at a place is changed without the others. -/
theorem Stores.modify
    {node : Node}
    (stores : Stores nodes (node :: held))
    (place : Nat)
    (here : node.number = place)
    (change : Node → Node)
    (keeps : (change node).number = node.number) :
    ∃ changed, modify? nodes place change = some changed ∧
      Stores changed (change node :: held) := by
  subst here
  have found := stores.getElem?_number List.mem_cons_self
  obtain ⟨within, at_place⟩ := List.getElem?_eq_some_iff.mp found
  refine ⟨nodes.set node.number (change node), ?_, ?_, ?_⟩
  · rw [modify?, found, Option.map_some]
  · have others : (nodes.eraseIdx node.number).Perm held := by
      have restored := List.getElem_cons_eraseIdx_perm within
      rw [at_place] at restored
      exact (restored.trans stores.perm).cons_inv
    exact (List.set_perm_cons_eraseIdx within _).trans (others.cons _)
  · rw [List.map_set, List.length_set, keeps, stores.numbers]
    refine List.ext_getElem (by simp) fun place _ _ => ?_
    rw [List.getElem_set, List.getElem_range]
    split
    · assumption
    · rfl

/-- A new node is linked from one that is there. -/
theorem Stores.link
    {node : Node}
    (stores : Stores nodes (node :: held))
    (place : Nat)
    (here : node.number = place)
    (chunk : Bytes) :
    ∃ linked,
      modify? (Arena.append nodes) place (Node.link chunk nodes.length) =
        some linked ∧
      linked.length = nodes.length + 1 ∧
      Stores linked
        (Node.bare nodes.length :: Node.link chunk nodes.length node ::
          held) := by
  obtain ⟨linked, modified, linkedStores⟩ :=
    (stores.append.of_perm (List.Perm.swap _ _ _)).modify place here
      (Node.link chunk nodes.length) rfl
  refine ⟨linked, modified, ?_, linkedStores.of_perm (List.Perm.swap _ _ _)⟩
  rw [linkedStores.length_eq, stores.length_eq]
  rfl

/-- No two nodes have one number. -/
theorem Stores.eq_of_number_eq
    (stores : Stores nodes held)
    {first second : Node}
    (first_mem : first ∈ held)
    (second_mem : second ∈ held)
    (number_eq : first.number = second.number) :
    first = second := by
  have found := stores.getElem?_number first_mem
  rw [number_eq, stores.getElem?_number second_mem] at found
  exact (Option.some.inj found).symm

end

/-! ## Arenas of tries -/

/-- A list that stores the nodes of a trie is the list of its nodes. -/
theorem Stores.eq_nodes
    {nodes : List Node}
    {trie : Trie}
    (stores : Stores nodes (trie.branches.nodesBelow 0 trie.terminal)) :
    nodes = trie.nodes := by
  have ascending : (nodes.map (·.number)).Pairwise (· ≤ ·) := by
    rw [stores.numbers]
    exact List.pairwise_le_range
  rw [List.pairwise_map] at ascending
  have sorted : trie.nodes.Pairwise fun first second =>
      first.number ≤ second.number := by
    refine (List.pairwise_mergeSort ?_ ?_ _).imp fun before => ?_
    · intro first second third
      simpa using Nat.le_trans
    · intro first second
      simpa using Nat.le_total first.number second.number
    · simpa using before
  have perm : nodes.Perm trie.nodes :=
    stores.perm.trans (List.mergeSort_perm _ _).symm
  refine List.Perm.eq_of_pairwise ?_ ascending sorted perm
  intro first second first_mem second_mem before after
  exact stores.eq_of_number_eq (stores.perm.mem_iff.mp first_mem)
    (stores.perm.mem_iff.mp (perm.mem_iff.mpr second_mem))
    (Nat.le_antisymm before after)

/-- An arena holds the nodes of a trie, each at the place of its number. -/
structure Represents (arena : Arena) (trie : Trie) : Prop where
  maxWidth_eq : arena.maxWidth = trie.maxWidth
  stores : Stores arena.nodes (trie.branches.nodesBelow 0 trie.terminal)

section

variable
  {arena : Arena}
  {trie : Trie}

/-- The nodes of an arena are determined by the trie. -/
theorem Represents.eq_ofTrie (represents : arena.Represents trie) :
    arena = ofTrie trie := by
  obtain ⟨maxWidth, nodes⟩ := arena
  obtain ⟨rfl, stores⟩ := represents
  rw [ofTrie, ← stores.eq_nodes]

theorem Represents.length_nodes (represents : arena.Represents trie) :
    arena.nodes.length = trie.size := by
  rw [represents.stores.length_eq, nodesBelow, List.length_cons,
    Branches.length_nodes, Trie.size]

theorem Represents.root (represents : arena.Represents trie) :
    arena.nodes[0]? = some ⟨0, trie.terminal, trie.branches.edges⟩ :=
  represents.stores.getElem?_number List.mem_cons_self

theorem Represents.foundIn (represents : arena.Represents trie) :
    trie.branches.FoundIn arena.nodes := by
  intro node listed
  exact represents.stores.getElem?_number (List.mem_cons_of_mem _ listed)

end

theorem represents_empty (maxWidth : Nat) :
    (empty maxWidth).Represents (Trie.empty maxWidth) :=
  ⟨rfl, stores_bare⟩

end Arena

end WordSwitch
