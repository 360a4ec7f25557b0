import WordSwitch.Proofs.Arena.Reached
import WordSwitch.Proofs.Trie.Get

/-!
# What is kept of one length

The arena of the words of one length has no node in vain.  It lists the words
of that length in the order in which they were listed before, words end at its
leaves and nowhere else, and some word passes through every node.
-/

namespace WordSwitch

namespace Arena

/-- Edges lead from one place to another, and their chunks make up some
bytes. -/
inductive Leads (arena : Arena) : Nat → Bytes → Nat → Prop
  | here (place : Nat) : Leads arena place [] place
  | along
      {parent child last : Nat}
      {chunk bytes : Bytes} :
      arena.Links parent chunk child → Leads arena child bytes last →
        Leads arena parent (chunk ++ bytes) last

/-- A word that is spelled on the way from a place ends at a terminal. -/
def Spells (arena : Arena) (place : Nat) (spelling : Spelling) : Prop :=
  ∃ last node,
    arena.Leads place spelling.1 last ∧
    arena.nodes[last]? = some node ∧
    node.terminal = some spelling.2

/-- The way from the root to the end of a word passes through a place. -/
def PassesThrough
    (arena : Arena)
    (spelling : Spelling)
    (place : Nat) :
    Prop :=
  ∃ front back,
    spelling.1 = front ++ back ∧
    arena.Leads 0 front place ∧
    arena.Spells place (back, spelling.2)

section

variable
  {arena : Arena}
  {parent child : Nat}
  {chunk : Bytes}

theorem Links.leads (links : arena.Links parent chunk child) :
    arena.Leads parent chunk child := by
  have single := Leads.along links (Leads.here child)
  rwa [List.append_nil] at single

/-- An edge puts its chunk in front of what is spelled below it. -/
theorem Links.spells
    (links : arena.Links parent chunk child)
    {spelling : Spelling}
    (spells : arena.Spells child spelling) :
    arena.Spells parent (Branches.extend chunk spelling) := by
  obtain ⟨last, node, leads, found, ends⟩ := spells
  exact ⟨last, node, Leads.along links leads, found, ends⟩

end

end Arena

namespace Branches

section

variable
  {arena : Arena}
  {branches : Branches Nat}

/-- If words end at the leaves, one is spelled from every node. -/
theorem WordsAtLeaves.exists_spells
    (leaves : branches.WordsAtLeaves)
    (found : branches.FoundIn arena.nodes)
    {place number : Nat}
    {terminal : Option Enumerator}
    (at_place : arena.nodes[place]? = some ⟨number, terminal, branches.edges⟩)
    (leaf : branches.isNil = true → terminal.isSome = true) :
    ∃ spelling ∈ ownSpelling [] terminal ++ branches.words,
      arena.Spells place spelling := by
  induction branches generalizing place number terminal with
  | nil =>
    obtain ⟨member, rfl⟩ := Option.isSome_iff_exists.mp (leaf rfl)
    exact ⟨([], member), List.mem_cons_self,
      place, _, Arena.Leads.here place, at_place, rfl⟩
  | cons chunk tag inner below rest below_spells _ =>
    obtain ⟨spelling, listed, spells⟩ :=
      below_spells leaves.2.1 found.below found.here (leaves.1 ▸ id)
    have links : arena.Links place chunk tag :=
      ⟨_, at_place, List.mem_cons_self⟩
    exact ⟨extend chunk spelling,
      List.mem_append_right _ (extend_mem_words_cons listed),
      links.spells spells⟩

/-- If words end at the leaves, one passes through every node. -/
theorem WordsAtLeaves.exists_passing
    (leaves : branches.WordsAtLeaves)
    (found : branches.FoundIn arena.nodes)
    {place : Nat}
    {parent : Node}
    (at_place : arena.nodes[place]? = some parent)
    (leads : ∀ edge ∈ branches.edges, edge ∈ parent.edges)
    {node : Node}
    (listed : node ∈ branches.nodes) :
    ∃ front spelling,
      extend front spelling ∈ branches.words ∧
      arena.Leads place front node.number ∧
      arena.Spells node.number spelling := by
  induction branches generalizing place parent with
  | nil => cases listed
  | cons chunk tag terminal below rest below_passing rest_passing =>
    have links : arena.Links place chunk tag :=
      ⟨parent, at_place, leads _ List.mem_cons_self⟩
    rw [nodes_cons, nodesBelow, List.cons_append, List.mem_cons,
      List.mem_append] at listed
    rcases listed with rfl | inBelow | inRest
    · obtain ⟨spelling, inEdge, spells⟩ :=
        leaves.2.1.exists_spells found.below found.here (leaves.1 ▸ id)
      exact ⟨chunk, spelling, extend_mem_words_cons inEdge, links.leads, spells⟩
    · obtain ⟨front, spelling, inWords, further, spells⟩ :=
        below_passing leaves.2.1 found.below found.here (fun _ => id) inBelow
      refine ⟨chunk ++ front, spelling, ?_, Arena.Leads.along links further,
        spells⟩
      rw [extend, List.append_assoc]
      exact extend_mem_words_cons (List.mem_append_right _ inWords)
    · obtain ⟨front, spelling, inWords, further, spells⟩ :=
        rest_passing leaves.2.2 found.rest at_place
          (fun edge inEdges => leads edge (List.mem_cons_of_mem _ inEdges))
          inRest
      exact ⟨front, spelling, List.mem_append_right _ inWords, further, spells⟩

end

end Branches

namespace Trie

/-- In a trie of words of one length, words end at the leaves and nowhere
else. -/
theorem OfOneLength.isLeaf_eq
    {trie : Trie}
    {length : Nat}
    (one : trie.OfOneLength length)
    {node : Node}
    (listed : node ∈ trie.nodes) :
    node.isLeaf = node.terminal.isSome := by
  rcases mem_nodes.mp listed with rfl | further
  · rw [Node.isLeaf, root, Branches.isEmpty_edges]
    exact one.leaf
  · exact one.branches.leaves.isLeaf_eq further

theorem reached_insertions
    (maxWidth : Nat)
    (insertions : List Spelling) :
    reached maxWidth
        (insertions.map fun spelling => .insert spelling.1 spelling.2) =
      ofInsertions maxWidth insertions := by
  rw [reached, List.foldl_map]
  rfl

theorem wellFormed_ofInsertions
    (maxWidth : Nat)
    (insertions : List Spelling) :
    (ofInsertions maxWidth insertions).WellFormed := by
  rw [← reached_insertions]
  exact wellFormed_reached maxWidth _

end Trie

namespace Arena

/-- Insertions lead to the arena of the trie that they lead to. -/
theorem represents_ofInsertions
    (maxWidth : Nat)
    (insertions : List Spelling) :
    let trie := Trie.ofInsertions maxWidth insertions
    EndsWith
      (reached maxWidth
        (insertions.map fun spelling => .insert spelling.1 spelling.2))
      (ofTrie trie) ∧
    (ofTrie trie).Represents trie := by
  intro trie
  have represents := represents_reached maxWidth
    (insertions.map fun spelling => .insert spelling.1 spelling.2)
  rwa [Trie.reached_insertions] at represents

/-- In the arena of a trie of words of one length, some word passes through
every node. -/
theorem Represents.exists_passesThrough
    {arena : Arena}
    {trie : Trie}
    (represents : arena.Represents trie)
    {length : Nat}
    (one : trie.OfOneLength length)
    {node : Node}
    (listed : node ∈ trie.nodes) :
    ∃ spelling ∈ trie.words, arena.PassesThrough spelling node.number := by
  have leaves := one.branches.leaves
  have found := represents.foundIn
  rcases Trie.mem_nodes.mp listed with rfl | further
  · obtain ⟨spelling, inWords, spells⟩ :=
      leaves.exists_spells found represents.root (one.leaf ▸ id)
    exact ⟨spelling, inWords, [], spelling.1, rfl, Leads.here 0, spells⟩
  · obtain ⟨front, spelling, inWords, leads, spells⟩ :=
      leaves.exists_passing found represents.root (fun _ => id) further
    exact ⟨Branches.extend front spelling, List.mem_append_right _ inWords,
      front, spelling.1, rfl, leads, spells⟩

/-- Restricting the arena that insertions lead to fails exactly if no word has
the length.  Otherwise it lists the words of that length in their order, words
end at its leaves and nowhere else, and some word passes through every node. -/
theorem ofLength_of_insertions
    (maxWidth : Nat)
    (insertions : List Spelling)
    (length : Nat) :
    let trie := Trie.ofInsertions maxWidth insertions
    let arena := ofTrie trie
    EndsWith
      (reached maxWidth
        (insertions.map fun spelling => .insert spelling.1 spelling.2))
      arena ∧
    EndsWith arena.words trie.words ∧
    match trie.ofLength? length with
    | none =>
      EndsWith (arena.ofLength length) none ∧
      ∀ spelling ∈ trie.words, spelling.1.length ≠ length
    | some restricted =>
      EndsWith (arena.ofLength length) (some (ofTrie restricted)) ∧
      (∃ spelling ∈ trie.words, spelling.1.length = length) ∧
      EndsWith (ofTrie restricted).words restricted.words ∧
      restricted.words = trie.words.filter (·.1.length == length) ∧
      ∀ node ∈ restricted.nodes,
        node.isLeaf = node.terminal.isSome ∧
        ∃ spelling ∈ restricted.words,
          (ofTrie restricted).PassesThrough spelling node.number := by
  intro trie arena
  have formed := Trie.wellFormed_ofInsertions maxWidth insertions
  obtain ⟨ends, represents⟩ := represents_ofInsertions maxWidth insertions
  have canonical := Trie.canonical_ofInsertions maxWidth insertions
  have restricts := represents.ofLength formed.positive formed.sorted length
  refine ⟨ends, represents.words, ?_⟩
  cases restriction : trie.ofLength? length with
  | none =>
    rw [restriction] at restricts
    refine ⟨restricts, ?_⟩
    rintro ⟨word, member⟩ present length_eq
    obtain ⟨restricted, restriction_eq⟩ :=
      canonical.exists_ofLength?_iff.mpr ⟨word, member, present, length_eq⟩
    cases restriction.symm.trans restriction_eq
  | some restricted =>
    rw [restriction] at restricts
    obtain ⟨copy, copied, copyRepresents⟩ := restricts
    obtain rfl : copy = ofTrie restricted := copyRepresents.eq_ofTrie
    have one := (canonical.ofLength?_eq_some restriction).1
    obtain ⟨word, member, present, length_eq⟩ :=
      canonical.exists_ofLength?_iff.mp ⟨restricted, restriction⟩
    refine ⟨copied, ⟨(word, member), present, length_eq⟩,
      copyRepresents.words, canonical.words_ofLength? restriction, ?_⟩
    intro node listed
    exact ⟨one.isLeaf_eq listed,
      copyRepresents.exists_passesThrough one listed⟩

/-- A word that ends on the way is dropped, one that goes on is cut off, and
nothing is left of one that branches off. -/
example :
    let trie := Trie.ofInsertions 2 [([97, 98], ⟨"Short", 1⟩),
      ([97, 98, 99, 100], ⟨"Kept", 2⟩), ([97, 98, 99, 100, 101], ⟨"Long", 3⟩),
      ([97, 98, 102], ⟨"Aside", 4⟩)]
    trie.size = 5 ∧
      (trie.ofLength? 4).map Trie.branches =
        some (.cons [97, 98] 2 none
          (.cons [99, 100] 1 (some ⟨"Kept", 2⟩) .nil .nil) .nil) := by
  decide

end Arena
end WordSwitch
