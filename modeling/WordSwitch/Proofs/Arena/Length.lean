import WordSwitch.Proofs.Arena.Storage
import WordSwitch.Proofs.Trie.Paths

/-!
# Restricting an arena to a length

The part of an arena that leads to the words of one length is copied into an
arena of its own, the nodes below an edge before the node that the edge leads
to.  The copy holds the nodes of the trie of these words, numbered upward.
-/

namespace WordSwitch

theorem changeAscending_of_lt
    {ν : Type}
    {key : Bytes}
    {pairs : List (Bytes × ν)}
    (before : ∀ pair ∈ pairs, pair.1 < key)
    (change : Option ν → ν) :
    changeAscending key change pairs = pairs ++ [(key, change none)] := by
  induction pairs with
  | nil => rfl
  | cons pair rest hypothesis =>
    obtain ⟨first, others⟩ := List.forall_mem_cons.mp before
    have different : key ≠ pair.1 := by
      intro equal
      exact List.lt_irrefl key (equal ▸ first)
    rw [changeAscending, if_neg different, if_neg (List.lt_asymm first),
      hypothesis others, List.cons_append]

namespace Branches

theorem numberUpward_append
    {ι : Type}
    (branches others : Branches ι)
    (next : Nat) :
    (branches.append others).numberUpward next =
      (branches.numberUpward next).append
        (others.numberUpward (next + branches.size)) := by
  induction branches generalizing next with
  | nil => rfl
  | cons chunk tag terminal below rest _ rest_append =>
    rw [append, numberUpward, rest_append, numberUpward, append, size_cons]
    congr 3
    omega

end Branches

namespace Arena

open Branches

/-- Copy what is left of one edge. -/
def keepEdge
    (source : List Node)
    (remaining limit : Nat)
    (copying : Copying)
    (edge : Bytes × Nat) :
    Option Copying :=
  if edge.1.length = remaining then
    keepLeaf source edge.2 edge.1 copying
  else if edge.1.length < remaining then
    (restrictFrom source limit edge.2 (remaining - edge.1.length)
      copying.2).bind (keepInner copying.1 edge.1)
  else
    some copying

theorem restrictFrom_eq
    {source : List Node}
    {place : Nat}
    {terminal : Option Enumerator}
    {edges : List (Bytes × Nat)}
    (here : source[place]? = some ⟨place, terminal, edges⟩)
    (remaining : Nat)
    (copy : List Node)
    (limit : Nat) :
    restrictFrom source (limit + 1) place remaining copy =
      edges.foldlM (keepEdge source remaining limit) ([], copy) := by
  rw [restrictFrom, here]
  rfl

/-- A computation adds the edges of some branches to those that are kept, and
their nodes to a copy that stores others. -/
def Copies
    (computation : (limit : Nat) → Option Copying)
    (kept : List (Bytes × Nat))
    (branches : Branches Nat)
    (others : List Node) :
    Prop :=
  ∃ grown, EndsWith computation (kept ++ branches.edges, grown) ∧
    Stores grown (branches.nodes ++ others)

section

variable
  {copy others : List Node}
  {kept : List (Bytes × Nat)}
  {chunk : Bytes}

/-- A copy grows by as many nodes as the branches have that are added. -/
theorem Stores.length_grown
    (stores : Stores copy others)
    {grown : List Node}
    {branches : Branches Nat}
    (grownStores : Stores grown (branches.nodes ++ others)) :
    grown.length = copy.length + branches.size := by
  rw [grownStores.length_eq, stores.length_eq, List.length_append,
    length_nodes, Nat.add_comm]

theorem copies_nil (stores : Stores copy others) :
    Copies (fun _ => some (kept, copy)) kept nil others := by
  refine ⟨copy, ?_, stores⟩
  rw [edges, List.append_nil]
  exact endsWith_some _

theorem Copies.of_bind
    {α : Type}
    {computation : (limit : Nat) → Option α}
    {next : (limit : Nat) → α → Option Copying}
    {value : α}
    {branches : Branches Nat}
    (copied : Copies (next · value) kept branches others)
    (ends : EndsWith computation value) :
    Copies (fun limit => (computation limit).bind (next limit)) kept branches
      others := by
  obtain ⟨grown, next_ends, grownStores⟩ := copied
  exact ⟨grown, ends.bind next_ends, grownStores⟩

theorem Copies.call
    {computation inner : (limit : Nat) → Option Copying}
    {branches : Branches Nat}
    (copied : Copies inner kept branches others)
    (opens : ∀ limit, computation (limit + 1) = inner limit) :
    Copies computation kept branches others := by
  obtain ⟨grown, inner_ends, grownStores⟩ := copied
  exact ⟨grown, inner_ends.call opens, grownStores⟩

theorem copies_keepLeaf
    {source : List Node}
    {place : Nat}
    {node : Node}
    (here : source[place]? = some node)
    (stores : Stores copy others)
    (before : ∀ edge ∈ kept, edge.1 < chunk) :
    Copies (fun _ => keepLeaf source place chunk (kept, copy)) kept
      (match node.terminal with
        | some enumerator => cons chunk copy.length (some enumerator) nil nil
        | none => nil)
      others := by
  unfold keepLeaf
  rw [here]
  cases terminal_eq : node.terminal with
  | none =>
    simp only [Option.bind_eq_bind, Option.bind_some, terminal_eq]
    exact copies_nil stores
  | some enumerator =>
    obtain ⟨ended, modified, endedStores⟩ :=
      stores.append.modify copy.length rfl (Node.endWith (some enumerator)) rfl
    refine ⟨ended, ?_, endedStores⟩
    simp only [Option.bind_eq_bind, Option.bind_some, terminal_eq, modified,
      changeAscending_of_lt before]
    exact endsWith_some _

theorem copies_keepInner
    {branches : Branches Nat}
    (stores : Stores copy (branches.nodes ++ others))
    (before : ∀ edge ∈ kept, edge.1 < chunk) :
    Copies (fun _ => keepInner kept chunk (branches.edges, copy)) kept
      (if branches.isNil then nil
        else cons chunk copy.length none branches nil)
      others := by
  unfold keepInner
  cases branches with
  | nil => exact copies_nil stores
  | cons key tag terminal below rest =>
    rw [isNil, if_neg Bool.false_ne_true]
    obtain ⟨linked, modified, linkedStores⟩ :=
      stores.append.modify copy.length rfl
        (Node.leadTo (cons key tag terminal below rest).edges) rfl
    refine ⟨linked, ?_, ?_⟩
    · simp only [Option.bind_eq_bind, modified,
        changeAscending_of_lt before]
      exact endsWith_some _
    · rw [nodes_cons chunk, Branches.nodes, List.append_nil]
      exact linkedStores

/-- What is left of an edge is copied once everything below it can be. -/
theorem copies_keepEdge
    {source : List Node}
    {tag : Nat}
    {terminal : Option Enumerator}
    {below : Branches Nat}
    (here : source[tag]? = some ⟨tag, terminal, below.edges⟩)
    {remaining : Nat}
    (copied : Copies
      (restrictFrom source · tag (remaining - chunk.length) copy) []
      ((below.ofLength (remaining - chunk.length)).numberUpward copy.length)
      others)
    (stores : Stores copy others)
    (before : ∀ edge ∈ kept, edge.1 < chunk) :
    Copies (keepEdge source remaining · (kept, copy) (chunk, tag)) kept
      ((keptEdge chunk terminal (below.ofLength (remaining - chunk.length))
        remaining).numberUpward copy.length)
      others := by
  unfold keepEdge keptEdge
  by_cases whole : chunk.length = remaining
  · simp only [if_pos whole]
    have leaf := copies_keepLeaf here stores before
    cases terminal <;> exact leaf
  · simp only [if_neg whole]
    by_cases shorter : chunk.length < remaining
    · simp only [if_pos shorter]
      obtain ⟨grown, below_ends, grownStores⟩ := copied
      have grown_length : grown.length = copy.length +
          (below.ofLength (remaining - chunk.length)).size := by
        rw [stores.length_grown grownStores, size_numberUpward]
      have inner :=
        (copies_keepInner grownStores before).of_bind below_ends
      generalize below.ofLength (remaining - chunk.length) = left at *
      cases left with
      | nil => exact inner
      | cons key number ending further rest =>
        rw [grown_length] at inner
        exact inner
    · simp only [if_neg shorter]
      exact copies_nil stores

theorem Copies.append
    {first : (limit : Nat) → Option Copying}
    {branches further : Branches Nat}
    {next : (limit : Nat) → Copying → Option Copying}
    (copied : Copies first kept branches others)
    (goesOn : ∀ grown, Stores grown (branches.nodes ++ others) →
      Copies (next · (kept ++ branches.edges, grown)) (kept ++ branches.edges)
        further (branches.nodes ++ others)) :
    Copies (fun limit => (first limit).bind (next limit)) kept
      (branches.append further) others := by
  obtain ⟨grown, first_ends, grownStores⟩ := copied
  obtain ⟨full, next_ends, fullStores⟩ := goesOn grown grownStores
  refine ⟨full, ?_, ?_⟩
  · rw [edges_append, ← List.append_assoc]
    exact first_ends.bind next_ends
  · rw [nodes_append, List.append_assoc]
    exact fullStores.of_perm (List.perm_append_comm_assoc _ _ _)

theorem chunks_numberUpward
    {ι : Type}
    (branches : Branches ι)
    (next : Nat) :
    (branches.numberUpward next).chunks = branches.chunks := by
  rw [← chunks_shape, shape_numberUpward, chunks_shape]

/-- What is left of some edges is copied in their order. -/
theorem copies_edges
    {source : List Node}
    {branches : Branches Nat}
    (found : branches.FoundIn source)
    (sorted : branches.Sorted)
    (remaining : Nat)
    (stores : Stores copy others)
    (before : ∀ edge ∈ kept, ∀ chunk ∈ branches.chunks, edge.1 < chunk) :
    Copies
      (fun limit =>
        branches.edges.foldlM (keepEdge source remaining limit) (kept, copy))
      kept ((branches.ofLength remaining).numberUpward copy.length) others := by
  induction branches generalizing remaining copy others kept with
  | nil => exact copies_nil stores
  | cons chunk tag terminal below rest below_copies rest_copies =>
    obtain ⟨first, belowSorted, restSorted⟩ := sorted
    have below_copied : Copies
        (restrictFrom source · tag (remaining - chunk.length) copy) [] _
        others :=
      (below_copies found.below belowSorted _ stores
        (List.forall_mem_nil _)).call (restrictFrom_eq found.here _ copy)
    rw [ofLength_cons, numberUpward_append]
    simp only [edges, List.foldlM_cons]
    refine (copies_keepEdge found.here below_copied stores ?_).append ?_
    · exact fun edge listed => before edge listed chunk List.mem_cons_self
    · intro grown grownStores
      have grown_length : grown.length = copy.length + (keptEdge chunk terminal
          (below.ofLength (remaining - chunk.length)) remaining).size := by
        rw [stores.length_grown grownStores, size_numberUpward]
      rw [← grown_length]
      -- What this edge adds to the kept ones has its chunk, which comes before
      -- the chunks that follow.
      refine rest_copies found.rest restSorted remaining grownStores ?_
      intro edge listed other later
      rcases List.mem_append.mp listed with earlier | here
      · exact before edge earlier other (List.mem_cons_of_mem _ later)
      · have of_chunk : edge.1 ∈ (keptEdge chunk terminal
            (below.ofLength (remaining - chunk.length)) remaining).chunks := by
          rw [← chunks_numberUpward _ copy.length, ← map_fst_edges]
          exact List.mem_map_of_mem here
        rw [chunks_keptEdge_subset of_chunk]
        exact first other later

end

/-- Restricting an arena to a length is restricting the trie. -/
theorem Represents.ofLength
    {arena : Arena}
    {trie : Trie}
    (represents : arena.Represents trie)
    (positive : 0 < trie.maxWidth)
    (sorted : trie.branches.Sorted)
    (length : Nat) :
    match trie.ofLength? length with
    | none => EndsWith (arena.ofLength length) none
    | some restricted =>
      ∃ copy, EndsWith (arena.ofLength length) (some copy) ∧
        copy.Represents restricted := by
  have width_eq : max arena.maxWidth 1 = trie.maxWidth := by
    rw [represents.maxWidth_eq]
    exact Nat.max_eq_left positive
  unfold Arena.ofLength Trie.ofLength?
  by_cases zero : length = 0
  · simp only [zero, if_true, represents.root, Option.bind_eq_bind,
      Option.bind_some]
    cases terminal_eq : trie.terminal with
    | none => exact endsWith_some none
    | some enumerator =>
      obtain ⟨ended, modified, endedStores⟩ :=
        stores_bare.modify 0 rfl (Node.endWith (some enumerator)) rfl
      refine ⟨⟨_, ended⟩, ?_, width_eq, endedStores⟩
      simp only [empty, modified, Option.bind_some]
      exact endsWith_some _
  · obtain ⟨grown, edges_end, grownStores⟩ := copies_edges represents.foundIn
      sorted length stores_bare (List.forall_mem_nil _)
    have copied : EndsWith
        (restrictFrom arena.nodes · 0 length (empty arena.maxWidth).nodes)
        (((trie.branches.ofLength length).numberUpward 1).edges, grown) :=
      edges_end.call (restrictFrom_eq represents.root length _)
    simp only [zero, if_false, Option.bind_eq_bind]
    generalize trie.branches.ofLength length = left at *
    cases left with
    | nil => exact copied.bind (endsWith_some none)
    | cons chunk tag terminal below rest =>
      obtain ⟨linked, modified, linkedStores⟩ :=
        (grownStores.of_perm List.perm_append_comm).modify 0 rfl
          (Node.leadTo ((cons chunk tag terminal below rest).numberUpward
            1).edges) rfl
      refine ⟨⟨_, linked⟩, copied.bind ?_, width_eq, linkedStores⟩
      simp only [modified]
      exact endsWith_some _

end Arena
end WordSwitch
