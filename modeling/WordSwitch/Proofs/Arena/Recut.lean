import Mathlib.Data.List.Sort
import WordSwitch.Proofs.Arena.Length
import WordSwitch.Proofs.Trie.Recut

/-!
# Recutting an arena

The pending edges of a node are put into groups by their first bytes, and each
group gets a new node that is linked and then filled in turn.  The groups are
those of the branches that the edges stand for, and what is built holds the
nodes of the recut branches, numbered downward.
-/

namespace WordSwitch

/-- Changing the value of one key in a list of ascending keys. -/
theorem changeAscending_map
    {ν : Type}
    {keys : List Bytes}
    (sorted : keys.Pairwise (· < ·))
    (key : Bytes)
    (change : Option ν → ν)
    {before after : Bytes → ν}
    (others : ∀ other ∈ keys, other ≠ key → after other = before other)
    (here : after key =
      change (if key ∈ keys then some (before key) else none)) :
    changeAscending key change (keys.map fun other => (other, before other)) =
      (insertAscending key keys).map fun other => (other, after other) := by
  induction keys with
  | nil => simp [changeAscending, insertAscending, here]
  | cons first rest hypothesis =>
    obtain ⟨least, later⟩ := List.pairwise_cons.mp sorted
    have unchanged : ∀ part : List Bytes, (∀ other ∈ part,
          other ∈ first :: rest ∧ other ≠ key) →
        part.map (fun other => (other, before other)) =
          part.map fun other => (other, after other) := by
      intro part different
      refine List.map_congr_left fun other listed => ?_
      obtain ⟨present, other_ne⟩ := different other listed
      rw [others other present other_ne]
    rw [List.map_cons, changeAscending, insertAscending]
    by_cases equal : key = first
    · subst equal
      rw [if_pos List.mem_cons_self] at here
      rw [if_pos rfl, if_pos rfl, ← here, List.map_cons, unchanged rest]
      intro other listed
      refine ⟨List.mem_cons_of_mem _ listed, ?_⟩
      rintro rfl
      exact List.lt_irrefl other (least other listed)
    · rw [if_neg equal, if_neg equal]
      split
      · next before_first =>
        have absent : ∀ other ∈ first :: rest, key < other := by
          intro other listed
          rcases List.mem_cons.mp listed with rfl | inRest
          · exact before_first
          · exact List.lt_trans before_first (least other inRest)
        have different : ∀ other ∈ first :: rest, other ≠ key := by
          rintro other listed rfl
          exact List.lt_irrefl other (absent other listed)
        rw [if_neg fun listed => different key listed rfl] at here
        rw [← here, ← List.map_cons (f := fun other => (other, before other)),
          unchanged (first :: rest) fun other listed =>
            ⟨listed, different other listed⟩]
        rfl
      · rw [hypothesis later, List.map_cons,
          others first List.mem_cons_self (Ne.symm equal)]
        · exact fun other listed =>
            others other (List.mem_cons_of_mem _ listed)
        · rw [here]
          simp only [List.mem_cons, equal, false_or]

namespace Branches

variable {ι : Type}

/-! ## Appended edges -/

theorem startingWith_append
    (width : Nat)
    (start : Bytes)
    (branches others : Branches ι) :
    (branches.append others).startingWith width start =
      (branches.startingWith width start).append
        (others.startingWith width start) := by
  induction branches with
  | nil => rfl
  | cons chunk tag terminal below rest _ rest_append =>
    rw [append, startingWith, startingWith, rest_append]
    split <;> rfl

theorem advance_append (width : Nat) (branches others : Branches ι) :
    (branches.append others).advance width =
      (branches.advance width).append (others.advance width) := by
  induction branches with
  | nil => rfl
  | cons chunk tag terminal below rest _ rest_append =>
    rw [append, advance, advance, rest_append, append_assoc]

theorem landing_append (width : Nat) (branches others : Branches ι) :
    (branches.append others).landing width =
      (others.landing width).or (branches.landing width) := by
  induction branches with
  | nil => rw [append, landing, Option.or_none]
  | cons chunk tag terminal below rest _ rest_append =>
    rw [append, landing, landing, rest_append, Option.or_assoc]

/-! ## The edges and nodes that are left -/

theorem edges_prepend (bytes : Bytes) (branches : Branches ι) :
    (branches.prepend bytes).edges =
      branches.edges.map fun edge => (bytes ++ edge.1, edge.2) := by
  induction branches with
  | nil => rfl
  | cons chunk tag terminal below rest _ rest_edges =>
    rw [prepend, edges, edges, rest_edges, List.map_cons]

theorem nodes_prepend (bytes : Bytes) (branches : Branches Nat) :
    (branches.prepend bytes).nodes = branches.nodes := by
  induction branches with
  | nil => rfl
  | cons chunk tag terminal below rest _ rest_nodes =>
    rw [prepend, nodes_cons, nodes_cons, rest_nodes]

theorem edges_advanceEdge
    (remainder : Bytes)
    (tag : ι)
    (terminal : Option Enumerator)
    (below : Branches ι) :
    (advanceEdge remainder tag terminal below).edges =
      if remainder.isEmpty then below.edges
      else if below.edges.isEmpty then [(remainder, tag)]
      else below.edges.map fun edge => (remainder ++ edge.1, edge.2) := by
  rw [advanceEdge, isEmpty_edges]
  split
  · rfl
  · split
    · rfl
    · exact edges_prepend remainder below

section

variable
  {source : List Node}
  {branches : Branches Nat}

theorem FoundIn.advanceEdge
    {chunk : Bytes}
    {tag : Nat}
    {terminal : Option Enumerator}
    {below rest : Branches Nat}
    (found : (cons chunk tag terminal below rest).FoundIn source)
    (remainder : Bytes) :
    (advanceEdge remainder tag terminal below).FoundIn source := by
  unfold Branches.advanceEdge
  split
  · exact found.below
  · split
    · next ends =>
      rw [isNil_eq_true_iff] at ends
      subst ends
      intro node listed
      have alone : node ∈ [⟨tag, terminal, nil.edges⟩] := listed
      rw [List.mem_singleton.mp alone]
      exact found.here
    · intro node listed
      rw [nodes_prepend] at listed
      exact found.below node listed

theorem FoundIn.group
    (found : branches.FoundIn source)
    (width : Nat)
    (start : Bytes) :
    ((branches.startingWith width start).advance width).FoundIn source := by
  induction branches with
  | nil => exact found
  | cons chunk tag terminal below rest _ rest_found =>
    unfold startingWith
    split
    · rw [advance]
      intro node listed
      rw [nodes_append, List.mem_append] at listed
      rcases listed with here | later
      · exact found.advanceEdge _ node here
      · exact rest_found found.rest node later
    · exact rest_found found.rest

end

end Branches

theorem ascending_append_singleton
    (values : List Bytes)
    (value : Bytes) :
    ascending (values ++ [value]) =
      insertAscending value (ascending values) := by
  refine (pairwise_ascending _).eq_of_mem_iff
    (pairwise_insertAscending (pairwise_ascending values)) fun other => ?_
  rw [mem_ascending, mem_insertAscending, mem_ascending, List.mem_append,
    List.mem_singleton, or_comm]

namespace Arena

open Branches

/-! ## Groups -/

/-- The group of the edges that begin with some bytes. -/
def groupOf
    (width : Nat)
    (branches : Branches Nat)
    (start : Bytes) :
    Group :=
  ⟨((branches.startingWith width start).advance width).edges,
    (branches.startingWith width start).landing width⟩

/-- The groups of some edges, in ascending order of their first bytes. -/
def groupsOf (width : Nat) (branches : Branches Nat) : List (Bytes × Group) :=
  (ascending (branches.chunks.map (·.take width))).map fun start =>
    (start, groupOf width branches start)

section

variable
  {source : List Node}
  {chunk : Bytes}
  {tag : Nat}
  {terminal : Option Enumerator}
  {below : Branches Nat}

/-- An edge is not in the groups of other first bytes. -/
theorem groupOf_append_of_ne
    {width : Nat}
    {start : Bytes}
    (different : start ≠ chunk.take width)
    (branches : Branches Nat) :
    groupOf width (branches.append (cons chunk tag terminal below nil)) start =
      groupOf width branches start := by
  have no_edge : (cons chunk tag terminal below nil).startingWith width start =
      nil := by
    rw [startingWith, if_neg (Ne.symm different), startingWith]
  rw [groupOf, groupOf, startingWith_append, no_edge, Branches.append_nil]

/-- An edge comes last in the group of its own first bytes. -/
theorem groupOf_append_self
    (width : Nat)
    (branches : Branches Nat) :
    groupOf width (branches.append (cons chunk tag terminal below nil))
        (chunk.take width) =
      let group := groupOf width branches (chunk.take width)
      let left := advanceEdge (chunk.drop width) tag terminal below
      ⟨group.edges ++ left.edges,
        (if (chunk.drop width).isEmpty then terminal else none).or
          group.terminal⟩ := by
  have one_edge : (cons chunk tag terminal below nil).startingWith width
      (chunk.take width) = cons chunk tag terminal below nil := by
    rw [startingWith, if_pos rfl, startingWith]
  have used : (chunk.drop width).isEmpty = true ↔ chunk.length ≤ width := by
    rw [List.isEmpty_iff, List.drop_eq_nil_iff]
  rw [groupOf, startingWith_append, one_edge, advance_append, landing_append,
    edges_append, advance, advance, Branches.append_nil, landing, landing,
    Option.none_or]
  simp only [used]
  rfl

/-- No edge begins with bytes that are not listed. -/
theorem groupOf_of_not_mem
    {width : Nat}
    {start : Bytes}
    {branches : Branches Nat}
    (absent : start ∉ branches.chunks.map (·.take width)) :
    groupOf width branches start = ⟨[], none⟩ := by
  rw [groupOf, startingWith_of_not_mem absent]
  rfl

/-- Putting one more edge into its group. -/
theorem collect_groupsOf
    (here : source[tag]? = some ⟨tag, terminal, below.edges⟩)
    (width : Nat)
    (branches : Branches Nat) :
    collect source width (groupsOf width branches) (chunk, tag) =
      some (groupsOf width
        (branches.append (cons chunk tag terminal below nil))) := by
  have starts_eq :
      (branches.append (cons chunk tag terminal below nil)).chunks.map
          (·.take width) =
        branches.chunks.map (·.take width) ++ [chunk.take width] := by
    rw [chunks_append, List.map_append]
    rfl
  rw [collect, here, groupsOf, groupsOf, starts_eq, ascending_append_singleton]
  simp only [Option.bind_eq_bind, Option.bind_some]
  congr 1
  refine changeAscending_map (pairwise_ascending _) _ _ ?_ ?_
  · exact fun other _ different => groupOf_append_of_ne different branches
  · have group_eq : (if chunk.take width ∈
          ascending (branches.chunks.map (·.take width)) then
            some (groupOf width branches (chunk.take width))
          else none).getD ⟨[], none⟩ =
        groupOf width branches (chunk.take width) := by
      split
      · rfl
      · next absent =>
        rw [mem_ascending] at absent
        exact (groupOf_of_not_mem absent).symm
    rw [groupOf_append_self, group_eq]
    simp only [edges_advanceEdge, Node.isLeaf]
    by_cases used : (chunk.drop width).isEmpty = true <;>
      by_cases leaf : below.edges.isEmpty = true <;>
      simp [used, leaf]

theorem foldlM_collect
    {branches : Branches Nat}
    (found : branches.FoundIn source)
    (width : Nat)
    (before : Branches Nat) :
    branches.edges.foldlM (collect source width) (groupsOf width before) =
      some (groupsOf width (before.append branches)) := by
  induction branches generalizing before with
  | nil => rw [Branches.append_nil]; rfl
  | cons chunk tag terminal below rest _ rest_groups =>
    rw [edges, List.foldlM_cons, collect_groupsOf found.here]
    simp only [Option.bind_eq_bind, Option.bind_some]
    rw [rest_groups found.rest, append_assoc]
    rfl

end

theorem cutWidth_edges (cutting : Cutting) (branches : Branches Nat) :
    cutWidth cutting branches.edges = branches.commonWidth cutting := by
  rw [cutWidth, commonWidth, ← map_fst_edges, List.map_map]
  rfl

/-! ## Filling -/

/-- Add a node for a group, and fill it. -/
def fillGroup
    (cutting : Cutting)
    (source : List Node)
    (place limit : Nat)
    (recut : List Node)
    (group : Bytes × Group) :
    Option (List Node) :=
  (modify? (append recut) place (Node.link group.1 recut.length)).bind
    (fill cutting source limit recut.length group.2.edges group.2.terminal)

theorem fill_eq
    (cutting : Cutting)
    (source : List Node)
    (place : Nat)
    (branches : Branches Nat)
    (terminal : Option Enumerator)
    (recut : List Node)
    (limit : Nat) :
    fill cutting source (limit + 1) place branches.edges terminal recut =
      (modify? recut place (Node.endWith terminal)).bind fun ended =>
        if branches.isNil then some ended
        else
          (branches.edges.foldlM
            (collect source (branches.commonWidth cutting)) []).bind
              fun groups =>
                groups.foldlM (fillGroup cutting source place limit)
                  ended := by
  rw [fill, isEmpty_edges, cutWidth_edges]
  rfl

/-- A computation makes a node lead to some branches, behind edges that it has,
and leaves the nodes that it stores besides. -/
def Fills
    (computation : (limit : Nat) → Option (List Node))
    (place : Nat)
    (terminal : Option Enumerator)
    (earlier : List (Bytes × Nat))
    (branches : Branches Nat)
    (others : List Node) :
    Prop :=
  ∃ filled, EndsWith computation filled ∧
    Stores filled
      (⟨place, terminal, earlier ++ branches.edges⟩ :: branches.nodes ++
        others)

section

variable
  {cutting : Cutting}
  {source : List Node}
  {place : Nat}
  {terminal : Option Enumerator}
  {earlier : List (Bytes × Nat)}
  {recut others : List Node}

/-- What it takes to fill a new node for a group. -/
def Fillable
    (cutting : Cutting)
    (source : List Node)
    (group : Group)
    (below : Branches Unit) :
    Prop :=
  ∀ child recut others, Stores recut (Node.bare child :: others) →
    Fills (fill cutting source · child group.edges group.terminal recut) child
      group.terminal [] (below.numberDownward recut.length) others

/-- A group gets a node that is linked behind the edges before. -/
theorem Fillable.exists_fillGroup
    {group : Group}
    {below : Branches Unit}
    (fillable : Fillable cutting source group below)
    {start : Bytes}
    (before : ∀ edge ∈ earlier, edge.1 < start)
    (stores : Stores recut (⟨place, terminal, earlier⟩ :: others)) :
    ∃ filled,
      EndsWith (fillGroup cutting source place · recut (start, group))
        filled ∧
      Stores filled
        (⟨place, terminal, earlier ++ [(start, recut.length)]⟩ ::
          ((below.numberDownward (recut.length + 1)).nodesBelow recut.length
            group.terminal ++ others)) := by
  obtain ⟨linked, modified, linked_length, linkedStores⟩ :=
    stores.link place rfl start
  have linked_node : Node.link start recut.length ⟨place, terminal, earlier⟩ =
      ⟨place, terminal, earlier ++ [(start, recut.length)]⟩ := by
    rw [Node.link, changeAscending_of_lt before]
  obtain ⟨filled, filled_ends, filledStores⟩ :=
    fillable recut.length linked _ linkedStores
  rw [linked_node, linked_length, List.nil_append] at filledStores
  refine ⟨filled, ?_, filledStores.of_perm List.perm_middle⟩
  simp only [fillGroup, modified, Option.bind_some]
  exact filled_ends

/-- One group after the other is filled, if each of them can be. -/
theorem fills_groups
    {starts : List Bytes}
    (sorted : starts.Pairwise (· < ·))
    {group : Bytes → Group}
    {below : Bytes → Branches Unit}
    (fillable : ∀ start ∈ starts,
      Fillable cutting source (group start) (below start))
    (before : ∀ edge ∈ earlier, ∀ start ∈ starts, edge.1 < start)
    (stores : Stores recut (⟨place, terminal, earlier⟩ :: others)) :
    Fills
      (fun limit =>
        (starts.map fun start => (start, group start)).foldlM
          (fillGroup cutting source place limit) recut)
      place terminal earlier
      ((fan (fun start => (group start).terminal) below
        starts).numberDownward recut.length) others := by
  induction starts generalizing earlier recut others with
  | nil =>
    rw [← List.append_nil earlier] at stores
    exact ⟨recut, endsWith_some recut, stores⟩
  | cons start rest hypothesis =>
    obtain ⟨least, later⟩ := List.pairwise_cons.mp sorted
    obtain ⟨here, after⟩ := List.forall_mem_cons.mp fillable
    obtain ⟨filled, filled_ends, filledStores⟩ := here.exists_fillGroup
      (fun edge listed => before edge listed start List.mem_cons_self) stores
    have filled_length : filled.length =
        recut.length + 1 + (below start).size := by
      rw [filledStores.length_eq, stores.length_eq, List.length_cons,
        List.length_append, nodesBelow, List.length_cons, length_nodes,
        size_numberDownward, List.length_cons]
      omega
    have still_before : ∀ edge ∈ earlier ++ [(start, recut.length)],
        ∀ other ∈ rest, edge.1 < other := by
      intro edge listed other inRest
      rcases List.mem_append.mp listed with old | new
      · exact before edge old other (List.mem_cons_of_mem _ inRest)
      · rw [List.mem_singleton.mp new]
        exact least other inRest
    -- The nodes below this group are among the others for those that follow.
    obtain ⟨full, full_ends, fullStores⟩ :=
      hypothesis later after still_before filledStores
    rw [filled_length] at fullStores
    refine ⟨full, ?_, ?_⟩
    · simp only [List.map_cons, List.foldlM_cons]
      exact filled_ends.bind full_ends
    · rw [fan, List.foldr_cons, ← fan, numberDownward, edges, nodes_cons,
        List.cons_append, List.append_assoc]
      rw [List.append_assoc, List.cons_append] at fullStores
      exact fullStores.of_perm ((List.perm_append_comm_assoc _ _ _).cons _)

end

theorem fills_nil
    (cutting : Cutting)
    (source : List Node)
    {place : Nat}
    {before : Option Enumerator}
    (terminal : Option Enumerator)
    {recut others : List Node}
    (stores : Stores recut (⟨place, before, []⟩ :: others)) :
    Fills
      (fill cutting source · place (nil : Branches Nat).edges terminal recut)
      place terminal [] nil others := by
  obtain ⟨ended, modified, endedStores⟩ :=
    stores.modify place rfl (Node.endWith terminal) rfl
  refine ⟨ended, (endsWith_some ended).call fun limit => ?_, endedStores⟩
  rw [fill_eq, modified]
  rfl

/-- Filling a node from edges gives it the recut branches that the edges stand
for. -/
theorem fills_recutWithin
    {cutting : Cutting}
    (positive : 0 < cutting.maxWidth)
    {source : List Node}
    {bound : Nat}
    {branches : Branches Nat}
    (found : branches.FoundIn source)
    (nonempty : branches.EveryChunk (· ≠ []))
    (enough : branches.levelBound ≤ bound)
    {place : Nat}
    {before : Option Enumerator}
    (terminal : Option Enumerator)
    {recut others : List Node}
    (stores : Stores recut (⟨place, before, []⟩ :: others)) :
    Fills (fill cutting source · place branches.edges terminal recut) place
      terminal []
      ((branches.recutWithin cutting bound).numberDownward recut.length)
      others := by
  -- A group has fewer levels below it than the branches it is taken from.
  induction bound generalizing branches place before terminal recut others with
  | zero =>
    rw [eq_nil_of_levelBound enough, recutWithin_nil]
    exact fills_nil cutting source terminal stores
  | succ bound hypothesis =>
    by_cases ends : branches.isNil = true
    · rw [isNil_eq_true_iff] at ends
      rw [ends, recutWithin_nil]
      exact fills_nil cutting source terminal stores
    · have width_pos := (readableWithin_commonWidth positive branches).pos
      have wide : ∀ chunk ∈ branches.chunks,
          branches.commonWidth cutting ≤ chunk.length :=
        fun _ => commonWidth_le_length cutting nonempty
      have fillable : ∀ start ∈ branches.starts cutting,
          Fillable cutting source
            (groupOf (branches.commonWidth cutting) branches start)
            ((branches.group cutting start).recutWithin cutting bound) := by
        intro start _ child recut others childStores
        refine hypothesis (found.group _ start)
          (nonempty.group (fun _ _ unused => unused) ?_) ?_ _ childStores
        · intro chunk other _ other_nonempty
          simp [other_nonempty]
        · have lower := levelBound_group width_pos wide start
          omega
      obtain ⟨ended, modified, endedStores⟩ :=
        stores.modify place rfl (Node.endWith terminal) rfl
      have ended_length : ended.length = recut.length := by
        rw [endedStores.length_eq, stores.length_eq]
        rfl
      have collected := foldlM_collect found (branches.commonWidth cutting) nil
      have none_before : groupsOf (branches.commonWidth cutting) nil = [] := rfl
      rw [none_before, Branches.append] at collected
      obtain ⟨filled, filled_ends, filledStores⟩ := fills_groups
        (pairwise_ascending _) fillable (List.forall_mem_nil _) endedStores
      rw [recutWithin_succ, ← ended_length]
      refine ⟨filled, filled_ends.call fun limit => ?_, filledStores⟩
      rw [fill_eq, modified, Option.bind_some, if_neg ends, collected,
        Option.bind_some]
      rfl

/-- Recutting an arena is recutting the trie. -/
theorem Represents.recut
    {arena : Arena}
    {trie : Trie}
    (represents : arena.Represents trie)
    (nonempty : trie.branches.EveryChunk (· ≠ []))
    (ignoreCase : Bool)
    (maxWidth : Nat) :
    ∃ cut, EndsWith (arena.recut ignoreCase maxWidth) cut ∧
      cut.Represents (trie.recut ignoreCase maxWidth) := by
  let cutting : Cutting := ⟨ignoreCase, max maxWidth 1⟩
  have positive : 0 < cutting.maxWidth :=
    Nat.lt_of_lt_of_le Nat.one_pos (Nat.le_max_right maxWidth 1)
  obtain ⟨filled, filled_ends, filledStores⟩ :=
    fills_recutWithin positive represents.foundIn nonempty (Nat.le_refl _)
      trie.terminal stores_bare
  rw [List.nil_append, List.append_nil] at filledStores
  refine ⟨⟨cutting.maxWidth, filled⟩, ?_, rfl, filledStores⟩
  unfold Arena.recut
  simp only [represents.root, Option.bind_eq_bind, Option.bind_some]
  exact filled_ends.map _

end Arena

end WordSwitch
