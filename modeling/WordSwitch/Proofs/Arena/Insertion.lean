import WordSwitch.Proofs.Arena.Storage
import WordSwitch.Proofs.Trie.Insertion

/-!
# Insertion into an arena

Insertion goes along the edges that are there, then appends a node and links it
from the last one for every chunk that is left.  What it does to an arena is
what insertion does to the trie: the two agree on every node, and nodes off the
path are not touched.
-/

namespace WordSwitch

/-- What is next to a part of a list goes along when the part is moved to the
front. -/
theorem perm_frame
    {α : Type}
    {whole part others : List α}
    (perm : whole.Perm (part ++ others))
    (first : α)
    (last : List α) :
    (first :: whole ++ last).Perm (part ++ (first :: (others ++ last))) := by
  have moved := (perm.append_right last).cons first
  rw [List.append_assoc] at moved
  exact moved.trans List.perm_middle.symm

namespace Branches

/-- The terminal where a path leads that may end at once. -/
def terminalBelow
    (terminal : Option Enumerator)
    (branches : Branches Nat) :
    (path : List Bytes) → Option Enumerator
  | [] => terminal
  | chunk :: path => branches.terminalAt? chunk path

/-- Lead a path to an enumerator that may end at once. -/
def insertBelow
    (next : Nat)
    (enumerator : Enumerator)
    (terminal : Option Enumerator)
    (branches : Branches Nat) :
    (path : List Bytes) → Option Enumerator × Branches Nat
  | [] => (some enumerator, branches)
  | chunk :: path => (terminal, branches.insert next enumerator chunk path)

/-- The nodes from a given one after a path is led to an enumerator. -/
def nodesAfter
    (next : Nat)
    (enumerator : Enumerator)
    (number : Nat)
    (terminal : Option Enumerator)
    (branches : Branches Nat)
    (path : List Bytes) :
    List Node :=
  (insertBelow next enumerator terminal branches path).2.nodesBelow number
    (insertBelow next enumerator terminal branches path).1

theorem nodesAfter_cons
    (next : Nat)
    (enumerator : Enumerator)
    (number : Nat)
    (terminal : Option Enumerator)
    (branches : Branches Nat)
    (chunk : Bytes)
    (path : List Bytes) :
    branches.nodesAfter next enumerator number terminal (chunk :: path) =
      ⟨number, terminal,
          (branches.insert next enumerator chunk path).edges⟩ ::
        (branches.insert next enumerator chunk path).nodes :=
  rfl

theorem chain_eq
    (next : Nat)
    (enumerator : Enumerator)
    (chunk : Bytes)
    (path : List Bytes)
    (others : Branches Nat) :
    chain next enumerator chunk path others =
      cons chunk next (insertBelow (next + 1) enumerator none nil path).1
        (insertBelow (next + 1) enumerator none nil path).2 others := by
  cases path <;> rfl

theorem insert_cons_self
    (next : Nat)
    (enumerator : Enumerator)
    (chunk : Bytes)
    (path : List Bytes)
    (tag : Nat)
    (terminal : Option Enumerator)
    (below rest : Branches Nat) :
    (cons chunk tag terminal below rest).insert next enumerator chunk path =
      cons chunk tag (insertBelow next enumerator terminal below path).1
        (insertBelow next enumerator terminal below path).2 rest := by
  cases path <;> simp [insert, insertBelow]

theorem mem_chunks_of_findIn?
    {branches : Branches Nat}
    {chunk : Bytes}
    {tag : Nat}
    (found : findIn? chunk branches.edges = some tag) :
    chunk ∈ branches.chunks := by
  induction branches with
  | nil => cases found
  | cons key tag terminal below rest _ rest_mem =>
    rw [edges, findIn?] at found
    split at found
    · next equal => exact equal ▸ List.mem_cons_self
    · exact List.mem_cons_of_mem _ (rest_mem found)

/-- An edge leads to a node above `below`, next to `others`.  Inserting a path
that begins with its chunk goes on there and leaves the others. -/
structure LeadsTo
    (branches : Branches Nat)
    (chunk : Bytes)
    (tag : Nat)
    (terminal : Option Enumerator)
    (below : Branches Nat)
    (others : List Node) :
    Prop where
  sorted : below.Sorted
  nodes_perm : branches.nodes.Perm (below.nodesBelow tag terminal ++ others)
  terminalAt?_eq : ∀ path,
    branches.terminalAt? chunk path = below.terminalBelow terminal path
  edges_insert : ∀ next enumerator path,
    (branches.insert next enumerator chunk path).edges = branches.edges
  nodes_insert : ∀ next enumerator path,
    (branches.insert next enumerator chunk path).nodes.Perm
      (below.nodesAfter next enumerator tag terminal path ++ others)

theorem leadsTo_cons_self
    {chunk : Bytes}
    {tag : Nat}
    {terminal : Option Enumerator}
    {below rest : Branches Nat}
    (sorted : below.Sorted) :
    (cons chunk tag terminal below rest).LeadsTo chunk tag terminal below
      rest.nodes where
  sorted := sorted
  nodes_perm := by rw [nodes_cons]
  terminalAt?_eq path := by cases path <;> simp [terminalAt?, terminalBelow]
  edges_insert next enumerator path := by
    rw [insert_cons_self, edges, edges]
  nodes_insert next enumerator path := by
    rw [insert_cons_self, nodes_cons, nodesAfter]

theorem LeadsTo.cons_of_lt
    {branches below : Branches Nat}
    {chunk : Bytes}
    {tag : Nat}
    {terminal : Option Enumerator}
    {others : List Node}
    (leads : branches.LeadsTo chunk tag terminal below others)
    {key : Bytes}
    (before : key < chunk)
    (number : Nat)
    (ending : Option Enumerator)
    (inner : Branches Nat) :
    (cons key number ending inner branches).LeadsTo chunk tag terminal below
      (inner.nodesBelow number ending ++ others) := by
  have different : chunk ≠ key := by
    rintro rfl
    exact List.lt_irrefl chunk before
  have inserted : ∀ next enumerator path,
      (cons key number ending inner branches).insert next enumerator chunk
        path = cons key number ending inner
          (branches.insert next enumerator chunk path) := by
    intro next enumerator path
    rw [insert_cons_of_ne different, if_neg (List.lt_asymm before)]
  refine ⟨leads.sorted, ?_, ?_, ?_, ?_⟩
  · rw [nodes_cons]
    exact (leads.nodes_perm.append_left _).trans
      (List.perm_append_comm_assoc _ _ _)
  · intro path
    rw [terminalAt?_cons_of_ne different, leads.terminalAt?_eq]
  · intro next enumerator path
    rw [inserted, edges, edges, leads.edges_insert]
  · intro next enumerator path
    rw [inserted, nodes_cons]
    exact ((leads.nodes_insert next enumerator path).append_left _).trans
      (List.perm_append_comm_assoc _ _ _)

/-- Where an edge with the first chunk of a path is found. -/
theorem exists_leadsTo
    {branches : Branches Nat}
    (sorted : branches.Sorted)
    {chunk : Bytes}
    {tag : Nat}
    (found : findIn? chunk branches.edges = some tag) :
    ∃ terminal below others,
      branches.LeadsTo chunk tag terminal below others := by
  induction branches with
  | nil => cases found
  | cons key number terminal below rest _ rest_leads =>
    obtain ⟨first, belowSorted, restSorted⟩ := sorted
    by_cases equal : key = chunk
    · subst equal
      rw [edges, findIn?, if_pos rfl] at found
      obtain rfl := Option.some.inj found
      exact ⟨terminal, below, rest.nodes, leadsTo_cons_self belowSorted⟩
    · rw [edges, findIn?, if_neg equal] at found
      obtain ⟨ending, inner, others, leads⟩ := rest_leads restSorted found
      have before := first chunk (mem_chunks_of_findIn? found)
      exact ⟨ending, inner, _, leads.cons_of_lt before number terminal below⟩

/-- No edge has the first chunk of a path: a path of new nodes is added. -/
theorem insert_of_findIn?_eq_none
    {branches : Branches Nat}
    {chunk : Bytes}
    (absent : findIn? chunk branches.edges = none)
    (next : Nat)
    (enumerator : Enumerator)
    (path : List Bytes) :
    branches.terminalAt? chunk path = none ∧
    (branches.insert next enumerator chunk path).edges =
      changeAscending chunk (fun _ => next) branches.edges ∧
    (branches.insert next enumerator chunk path).nodes.Perm
      (nil.nodesAfter (next + 1) enumerator next none path ++
        branches.nodes) := by
  induction branches with
  | nil =>
    rw [insert, chain_eq, nodes_cons, edges]
    exact ⟨rfl, rfl, List.Perm.refl _⟩
  | cons key tag terminal below rest _ rest_insert =>
    by_cases equal : key = chunk
    · rw [edges, findIn?, if_pos equal] at absent
      cases absent
    · rw [edges, findIn?, if_neg equal] at absent
      obtain ⟨unfound, edges_eq, nodes_perm⟩ := rest_insert absent
      rw [terminalAt?_cons_of_ne (Ne.symm equal),
        insert_cons_of_ne (Ne.symm equal), edges, changeAscending,
        if_neg (Ne.symm equal)]
      refine ⟨unfound, ?_⟩
      split
      · rw [chain_eq, nodes_cons, edges, edges]
        exact ⟨rfl, List.Perm.refl _⟩
      · rw [nodes_cons, nodes_cons, edges, edges_eq]
        refine ⟨rfl, ?_⟩
        exact (nodes_perm.append_left _).trans
          (List.perm_append_comm_assoc _ _ _)

end Branches

namespace Trie

theorem replaced?_eq (trie : Trie) (word : Bytes) :
    trie.replaced? word =
      trie.branches.terminalBelow trie.terminal
        (Chunk.cut trie.maxWidth word) := by
  unfold replaced?
  cases Chunk.cut trie.maxWidth word <;> rfl

theorem insert_eq (trie : Trie) (word : Bytes) (enumerator : Enumerator) :
    trie.insert word enumerator =
      let changed := Branches.insertBelow trie.size enumerator trie.terminal
        trie.branches (Chunk.cut trie.maxWidth word)
      ⟨trie.maxWidth, changed.1, changed.2⟩ := by
  unfold insert
  cases Chunk.cut trie.maxWidth word <;> rfl

end Trie

namespace Arena

open Branches

section

variable
  (maxWidth : Nat)
  (enumerator : Enumerator)
  {place : Nat}
  {terminal : Option Enumerator}
  {branches : Branches Nat}
  {nodes : List Node}

theorem insertFrom_nil
    (here : nodes[place]? = some ⟨place, terminal, branches.edges⟩)
    (limit : Nat) :
    insertFrom maxWidth enumerator (limit + 1) place [] nodes =
      (modify? nodes place (Node.endWith (some enumerator))).map
        fun ended => (terminal, ended) := by
  rw [insertFrom, here, Option.map_eq_bind]
  rfl

theorem insertFrom_of_ne_nil
    (here : nodes[place]? = some ⟨place, terminal, branches.edges⟩)
    {word : Bytes}
    (nonempty : word ≠ [])
    (limit : Nat) :
    insertFrom maxWidth enumerator (limit + 1) place word nodes =
      let width := Chunk.readWidth word.length maxWidth
      match findIn? (word.take width) branches.edges with
      | some child =>
        insertFrom maxWidth enumerator limit child (word.drop width) nodes
      | none =>
        (modify? (append nodes) place
          (Node.link (word.take width) nodes.length)).bind
            (insertFrom maxWidth enumerator limit nodes.length
              (word.drop width)) := by
  rw [← List.isEmpty_eq_false_iff] at nonempty
  rw [insertFrom, here]
  simp only [Option.bind_eq_bind, Option.bind_some, nonempty]
  rfl

end

/-- Inserting what is left of a word from a node does to the nodes what leading
its cut to the enumerator does to the branches below, and leaves all others. -/
theorem insertFrom_stores
    (maxWidth : Nat)
    (enumerator : Enumerator)
    (word : Bytes)
    {place : Nat}
    {terminal : Option Enumerator}
    {branches : Branches Nat}
    (sorted : branches.Sorted)
    {nodes others : List Node}
    (stores : Stores nodes (branches.nodesBelow place terminal ++ others)) :
    ∃ changed,
      EndsWith (insertFrom maxWidth enumerator · place word nodes)
        (branches.terminalBelow terminal (Chunk.cut maxWidth word),
          changed) ∧
      Stores changed
        (branches.nodesAfter nodes.length enumerator place terminal
          (Chunk.cut maxWidth word) ++ others) := by
  -- The induction is on the chunks of the word, one for each node passed.
  generalize cut_eq : Chunk.cut maxWidth word = path
  induction path generalizing word place terminal branches nodes others with
  | nil =>
    have word_eq : word = [] := by
      rw [← Chunk.flatten_cut maxWidth word, cut_eq]
      rfl
    subst word_eq
    have here := stores.getElem?_number List.mem_cons_self
    obtain ⟨changed, modified, changedStores⟩ :=
      stores.modify place rfl (Node.endWith (some enumerator)) rfl
    refine ⟨changed, (endsWith_some _).call fun limit => ?_, changedStores⟩
    rw [insertFrom_nil maxWidth enumerator here, modified]
    rfl
  | cons chunk path hypothesis =>
    have nonempty : word ≠ [] := by
      rintro rfl
      cases cut_eq
    rw [Chunk.cut_of_ne_nil maxWidth nonempty] at cut_eq
    obtain ⟨chunk_eq, path_eq⟩ := List.cons.inj cut_eq
    have here := stores.getElem?_number List.mem_cons_self
    have opened := insertFrom_of_ne_nil maxWidth enumerator here nonempty
    simp only [chunk_eq] at opened
    cases found : findIn? chunk branches.edges with
    | some child =>
      obtain ⟨ending, below, siblings, leads⟩ := exists_leadsTo sorted found
      have childStores := stores.of_perm (perm_frame leads.nodes_perm _ others)
      obtain ⟨changed, inserted, changedStores⟩ :=
        hypothesis _ leads.sorted childStores path_eq
      refine ⟨changed, ?_, ?_⟩
      · rw [terminalBelow, leads.terminalAt?_eq]
        refine inserted.call fun limit => ?_
        rw [opened, found]
      · refine changedStores.of_perm ?_
        rw [nodesAfter_cons, leads.edges_insert]
        exact (perm_frame (leads.nodes_insert _ enumerator path) _
          others).symm
    | none =>
      obtain ⟨unfound, edges_eq, nodes_perm⟩ :=
        insert_of_findIn?_eq_none found nodes.length enumerator path
      obtain ⟨linked, modified, linked_length, linkedStores⟩ :=
        stores.link place rfl chunk
      -- The new node is one above no branches.
      have childStores : Stores linked
          (nil.nodesBelow nodes.length none ++ _) :=
        linkedStores
      have sorted_nil : (nil : Branches Nat).Sorted := trivial
      obtain ⟨changed, inserted, changedStores⟩ :=
        hypothesis _ sorted_nil childStores path_eq
      rw [linked_length] at changedStores
      refine ⟨changed, ?_, ?_⟩
      · have no_terminal : nil.terminalBelow none path = none := by
          cases path <;> rfl
        rw [no_terminal] at inserted
        rw [terminalBelow, unfound]
        refine inserted.call fun limit => ?_
        rw [opened, found]
        simp only [modified, Option.bind_some]
      · refine changedStores.of_perm ?_
        rw [nodesAfter_cons, edges_eq]
        exact (perm_frame nodes_perm _ others).symm

/-- Inserting a word into an arena is inserting it into the trie. -/
theorem Represents.insert
    {arena : Arena}
    {trie : Trie}
    (represents : arena.Represents trie)
    (sorted : trie.branches.Sorted)
    (word : Bytes)
    (enumerator : Enumerator) :
    ∃ changed,
      EndsWith (arena.insert word enumerator) (trie.replaced? word, changed) ∧
      changed.Represents (trie.insert word enumerator) := by
  have stores := represents.stores
  rw [← List.append_nil (trie.branches.nodesBelow _ _)] at stores
  obtain ⟨changed, inserted, changedStores⟩ :=
    insertFrom_stores trie.maxWidth enumerator word sorted stores
  rw [represents.length_nodes, List.append_nil] at changedStores
  refine ⟨⟨trie.maxWidth, changed⟩, ?_, ?_⟩
  · rw [← Trie.replaced?_eq, ← represents.maxWidth_eq] at inserted
    rw [← represents.maxWidth_eq]
    exact inserted.bind (endsWith_some _)
  · rw [Trie.insert_eq]
    exact ⟨rfl, changedStores⟩

end Arena
end WordSwitch
