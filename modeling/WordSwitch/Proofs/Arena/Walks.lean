import WordSwitch.Proofs.Arena.Kept
import WordSwitch.Proofs.Trie.NodePaths

/-!
# Walks

A walk follows edges from place to place and keeps their chunks apart.  In a
well linked arena the chunks determine where a walk ends, and in the arena of a
trie the walks from the root go along the paths to its nodes.
-/

namespace WordSwitch

namespace Arena

/-- Edges with the given chunks lead from one place to another. -/
inductive Walks (arena : Arena) : Nat → List Bytes → Nat → Prop
  | here (place : Nat) : Walks arena place [] place
  | along
      {parent child last : Nat}
      {chunk : Bytes}
      {path : List Bytes} :
      arena.Links parent chunk child → Walks arena child path last →
        Walks arena parent (chunk :: path) last

section

variable
  {arena : Arena}
  {place last : Nat}
  {chunk : Bytes}
  {path : List Bytes}

@[simp] theorem walks_nil_iff :
    arena.Walks place [] last ↔ place = last := by
  constructor
  · rintro ⟨⟩
    rfl
  · rintro rfl
    exact Walks.here place

theorem walks_cons_iff :
    arena.Walks place (chunk :: path) last ↔
      ∃ child, arena.Links place chunk child ∧
        arena.Walks child path last := by
  constructor
  · rintro (_ | ⟨links, walks⟩)
    exact ⟨_, links, walks⟩
  · rintro ⟨_, links, walks⟩
    exact Walks.along links walks

/-- The last edge of a walk leaves the place where the walk before it ends. -/
theorem walks_append_singleton_iff :
    arena.Walks place (path ++ [chunk]) last ↔
      ∃ parent, arena.Walks place path parent ∧
        arena.Links parent chunk last := by
  induction path generalizing place with
  | nil => simp [walks_cons_iff]
  | cons first path hypothesis =>
    rw [List.cons_append, walks_cons_iff]
    simp only [hypothesis, walks_cons_iff]
    grind

/-- Bytes that lead from one place to another are spelled by a walk. -/
theorem leads_iff {bytes : Bytes} :
    arena.Leads place bytes last ↔
      ∃ path, path.flatten = bytes ∧ arena.Walks place path last := by
  constructor
  · intro leads
    induction leads with
    | here place => exact ⟨[], rfl, Walks.here place⟩
    | along links _ hypothesis =>
      obtain ⟨path, rfl, walks⟩ := hypothesis
      exact ⟨_ :: path, rfl, Walks.along links walks⟩
  · rintro ⟨path, rfl, walks⟩
    induction walks with
    | here place => exact Leads.here place
    | along links _ hypothesis => exact Leads.along links hypothesis

/-- The chunk of an edge determines the place that it leads to. -/
theorem WellLinked.eq_of_links
    (linked : arena.WellLinked)
    {first second : Nat}
    (firstLinks : arena.Links place chunk first)
    (secondLinks : arena.Links place chunk second) :
    first = second := by
  obtain ⟨node, at_place, first_mem⟩ := firstLinks
  obtain ⟨other, other_at_place, second_mem⟩ := secondLinks
  obtain rfl := Option.some.inj (at_place.symm.trans other_at_place)
  have distinct : node.chunks.Nodup := (linked.ordered place node at_place).nodup
  have same := List.inj_on_of_nodup_map distinct first_mem second_mem rfl
  exact congrArg Prod.snd same

/-- The chunks of a walk determine where it ends. -/
theorem WellLinked.eq_of_walks
    (linked : arena.WellLinked)
    {first second : Nat}
    (firstWalks : arena.Walks place path first)
    (secondWalks : arena.Walks place path second) :
    first = second := by
  induction firstWalks with
  | here place => exact walks_nil_iff.mp secondWalks
  | along links _ hypothesis =>
    obtain ⟨child, otherLinks, otherWalks⟩ := walks_cons_iff.mp secondWalks
    obtain rfl := linked.eq_of_links links otherLinks
    exact hypothesis otherWalks

/-- Every place is the end of a walk from the root. -/
theorem WellLinked.exists_walks
    (linked : arena.WellLinked)
    (within : place < arena.nodes.length) :
    ∃ path, arena.Walks 0 path place := by
  have reached := linked.reachable place within
  clear within
  induction reached with
  | refl => exact ⟨[], Walks.here 0⟩
  | tail _ links hypothesis =>
    obtain ⟨path, walks⟩ := hypothesis
    obtain ⟨chunk, links⟩ := links
    exact ⟨path ++ [chunk], walks_append_singleton_iff.mpr ⟨_, walks, links⟩⟩

end

end Arena

namespace Branches

variable
  {arena : Arena}
  {place : Nat}
  {first : Bytes}
  {path : List Bytes}
  {branches : Branches Nat}

/-- A walk from a node above branches begins with one of their edges. -/
theorem exists_walks_cons_iff
    {number : Nat}
    {terminal : Option Enumerator}
    (at_place :
      arena.nodes[place]? = some ⟨number, terminal, branches.edges⟩) :
    (∃ last, arena.Walks place (first :: path) last) ↔
      ∃ child, (first, child) ∈ branches.edges ∧
        ∃ last, arena.Walks child path last := by
  have links_iff : ∀ child, arena.Links place first child ↔
      (first, child) ∈ branches.edges := by
    intro child
    rw [Arena.Links, at_place]
    simp
  simp only [Arena.walks_cons_iff, links_iff]
  constructor
  · rintro ⟨last, child, inEdges, walks⟩
    exact ⟨child, inEdges, last, walks⟩
  · rintro ⟨child, inEdges, last, walks⟩
    exact ⟨last, child, inEdges, walks⟩

/-- The walks along the edges of branches go along the paths to their nodes. -/
theorem FoundIn.exists_walks_iff (found : branches.FoundIn arena.nodes) :
    (∃ child, (first, child) ∈ branches.edges ∧
      ∃ last, arena.Walks child path last) ↔
      first :: path ∈ branches.paths := by
  induction branches generalizing first path with
  | nil => simp [edges, paths]
  | cons chunk tag terminal below rest below_iff rest_iff =>
    have below_walks : (∃ last, arena.Walks tag path last) ↔
        path = [] ∨ path ∈ below.paths := by
      cases path with
      | nil => simp
      | cons second path =>
        rw [exists_walks_cons_iff found.here, below_iff found.below]
        simp
    rw [mem_paths_cons, ← below_walks, ← rest_iff found.rest]
    simp only [edges, List.mem_cons, Prod.mk.injEq]
    constructor
    · rintro ⟨child, ⟨rfl, rfl⟩ | later, walks⟩
      · exact Or.inl ⟨rfl, walks⟩
      · exact Or.inr ⟨child, later, walks⟩
    · rintro (⟨rfl, walks⟩ | ⟨child, later, walks⟩)
      · exact ⟨tag, Or.inl ⟨rfl, rfl⟩, walks⟩
      · exact ⟨child, Or.inr later, walks⟩

end Branches

namespace Arena

/-- In the arena of a trie, the walks from the root go along the paths to its
nodes. -/
theorem Represents.exists_walks_iff
    {arena : Arena}
    {trie : Trie}
    (represents : arena.Represents trie)
    {path : List Bytes} :
    (∃ place, arena.Walks 0 path place) ↔ path ∈ trie.paths := by
  cases path with
  | nil => simp [Trie.paths]
  | cons first path =>
    rw [Branches.exists_walks_cons_iff represents.root,
      represents.foundIn.exists_walks_iff, Trie.paths, List.mem_cons]
    simp

end Arena
end WordSwitch
