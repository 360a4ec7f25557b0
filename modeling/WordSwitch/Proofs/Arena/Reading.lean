import WordSwitch.Proofs.Arena.Storage
import WordSwitch.Proofs.Trie.Levels

/-!
# Looking at an arena

Where the nodes that branches hold are found at their numbers, looking at an
arena from the node above the branches has a result, and it is what looking at
the branches themselves gives.
-/

namespace WordSwitch
namespace Arena

open Branches

variable
  {nodes : List Node}
  {place : Nat}
  {terminal : Option Enumerator}

/-! ## Looking up a word -/

theorem getFrom_eq
    {below : Branches Nat}
    (here : nodes[place]? = some ⟨place, terminal, below.edges⟩)
    (word : Bytes)
    (limit : Nat) :
    getFrom nodes (limit + 1) place word =
      if word.isEmpty then some terminal
      else
        (below.edges.filter fun edge => edge.1.isPrefixOf word).findSomeM?
          fun edge => getFrom nodes limit edge.2 (word.drop edge.1.length) := by
  rw [getFrom, here]
  rfl

/-- Looking up a word from a node above branches, once the edges that leave it
can be followed. -/
theorem endsWith_getFrom
    {below : Branches Nat}
    (here : nodes[place]? = some ⟨place, terminal, below.edges⟩)
    (word : Bytes)
    (further : word ≠ [] → EndsWith
      (fun limit =>
        (below.edges.filter fun edge => edge.1.isPrefixOf word).findSomeM?
          fun edge => getFrom nodes limit edge.2 (word.drop edge.1.length))
      (below.get? word)) :
    EndsWith (getFrom nodes · place word)
      (if word.isEmpty then terminal else below.get? word) := by
  have opened := getFrom_eq here word
  cases word with
  | nil => exact (endsWith_some terminal).call opened
  | cons byte rest => exact (further (List.cons_ne_nil byte rest)).call opened

theorem endsWith_findSomeM?_getFrom
    {branches : Branches Nat}
    (found : branches.FoundIn nodes)
    {word : Bytes}
    (nonempty : word ≠ []) :
    EndsWith
      (fun limit =>
        (branches.edges.filter fun edge => edge.1.isPrefixOf word).findSomeM?
          fun edge => getFrom nodes limit edge.2 (word.drop edge.1.length))
      (branches.get? word) := by
  induction branches generalizing word with
  | nil => exact endsWith_some none
  | cons chunk tag terminal below rest below_get rest_get =>
    simp only [edges, List.filter_cons, get?]
    by_cases begins : chunk.isPrefixOf word = true
    · have within : chunk.length ≤ word.length :=
        (List.isPrefixOf_iff_prefix.mp begins).length_le
      have used_iff : (word.drop chunk.length).isEmpty = true ↔
          chunk.length = word.length := by
        rw [List.isEmpty_iff, List.drop_eq_nil_iff]
        omega
      have below_ends := endsWith_getFrom found.here
        (word.drop chunk.length) (below_get found.below)
      simp only [used_iff] at below_ends
      simp only [begins, if_true, List.findSomeM?]
      refine below_ends.bind ?_
      generalize (if chunk.length = word.length then terminal
        else below.get? (word.drop chunk.length)) = first
      cases first with
      | none => exact rest_get found.rest nonempty
      | some enumerator => exact endsWith_some _
    · simp only [begins]
      exact rest_get found.rest nonempty

/-! ## Listing the words -/

/-- The place on top of the stack is passed once what it puts there is. -/
theorem endsWith_wordsFrom_cons
    {below : Branches Nat}
    (here : nodes[place]? = some ⟨place, terminal, below.edges⟩)
    {words all : List Spelling}
    {spelled : Bytes}
    {stack : List (Nat × Bytes)}
    (further : EndsWith
      (wordsFrom nodes · (words ++ ownSpelling spelled terminal)
        (below.edges.map (fun edge => (edge.2, spelled ++ edge.1)) ++ stack))
      all) :
    EndsWith (wordsFrom nodes · words ((place, spelled) :: stack)) all := by
  refine further.call fun limit => ?_
  rw [wordsFrom, here]
  rfl

/-- The edges of branches are taken off the stack with all words below. -/
theorem endsWith_wordsFrom_edges
    {branches : Branches Nat}
    (found : branches.FoundIn nodes)
    {words all : List Spelling}
    {spelled : Bytes}
    {stack : List (Nat × Bytes)}
    (further : EndsWith
      (wordsFrom nodes · (words ++ branches.words.map (extend spelled)) stack)
      all) :
    EndsWith
      (wordsFrom nodes · words
        (branches.edges.map (fun edge => (edge.2, spelled ++ edge.1)) ++
          stack))
      all := by
  induction branches generalizing words spelled stack with
  | nil =>
    rw [words_nil, List.map_nil, List.append_nil] at further
    exact further
  | cons chunk tag terminal below rest below_words rest_words =>
    refine endsWith_wordsFrom_cons found.here (below_words found.below
      (rest_words found.rest ?_))
    have words_eq : (cons chunk tag terminal below rest).words.map
          (extend spelled) =
        ownSpelling (spelled ++ chunk) terminal ++
          (below.words.map (extend (spelled ++ chunk)) ++
            rest.words.map (extend spelled)) := by
      rw [words_cons, List.map_append, List.map_append, List.map_map,
        List.append_assoc]
      congr 1
      · cases terminal <;> rfl
      · congr 1
        refine List.map_congr_left fun spelling _ => ?_
        simp [extend]
    rw [words_eq] at further
    rw [List.append_assoc, List.append_assoc]
    exact further

/-! ## Measuring the depth -/

/-- The depth below a node above branches, once it is measured below all edges
that leave it. -/
theorem endsWith_depthFrom
    {below : Branches Nat}
    (here : nodes[place]? = some ⟨place, terminal, below.edges⟩)
    {depths : List Nat}
    (measured : EndsWith
      (fun limit => below.edges.mapM fun edge => depthFrom nodes limit edge.2)
      depths)
    (deepest : ((depths.map (1 + ·)).max?).getD 0 = below.depth) :
    EndsWith (depthFrom nodes · place) below.depth := by
  rw [← deepest]
  refine (measured.map fun depths =>
    ((depths.map (1 + ·)).max?).getD 0).call fun limit => ?_
  rw [depthFrom, here]
  rfl

theorem endsWith_mapM_depthFrom
    {branches : Branches Nat}
    (found : branches.FoundIn nodes) :
    ∃ depths,
      EndsWith
        (fun limit =>
          branches.edges.mapM fun edge => depthFrom nodes limit edge.2)
        depths ∧
      ((depths.map (1 + ·)).max?).getD 0 = branches.depth := by
  induction branches with
  | nil => exact ⟨[], endsWith_some [], rfl⟩
  | cons chunk tag terminal below rest below_depth rest_depth =>
    obtain ⟨deeper, below_ends, below_max⟩ := below_depth found.below
    obtain ⟨others, rest_ends, rest_max⟩ := rest_depth found.rest
    have first := endsWith_depthFrom found.here below_ends below_max
    refine ⟨below.depth :: others, ?_, ?_⟩
    · simp only [edges, List.mapM_cons]
      exact first.bind (rest_ends.bind (endsWith_some _))
    · rw [List.map_cons, List.max?_cons, Option.getD_some, depth_cons,
        ← rest_max, Nat.add_comm 1]
      cases (others.map (1 + ·)).max? <;> simp

/-! ## Listing the widths -/

theorem foundIn_append {first second : Branches Nat} :
    (first.append second).FoundIn nodes ↔
      first.FoundIn nodes ∧ second.FoundIn nodes := by
  simp only [FoundIn, nodes_append, List.mem_append, or_imp, forall_and]

/-- The nodes that the edges of branches lead to, and the edges that leave
these. -/
theorem mapM_edges
    {branches : Branches Nat}
    (found : branches.FoundIn nodes) :
    branches.nextLevel.FoundIn nodes ∧
      ∃ level,
        (branches.edges.map (·.2)).mapM (fun place => nodes[place]?) =
          some level ∧
        level.flatMap Node.edges = branches.nextLevel.edges := by
  induction branches with
  | nil => exact ⟨found, [], rfl, rfl⟩
  | cons chunk tag terminal below rest _ rest_level =>
    obtain ⟨restFound, level, level_eq, edges_eq⟩ := rest_level found.rest
    refine ⟨foundIn_append.mpr ⟨found.below, restFound⟩,
      ⟨tag, terminal, below.edges⟩ :: level, ?_, ?_⟩
    · rw [edges, List.map_cons, List.mapM_cons, found.here, level_eq]
      rfl
    · rw [List.flatMap_cons, edges_eq, nextLevel, edges_append]

/-- A frontier from which edges go on is passed once the next one is. -/
theorem levelWidthsFrom_eq
    {frontier : List Nat}
    {level : List Node}
    (level_eq : frontier.mapM (fun place => nodes[place]?) = some level)
    {branches : Branches Nat}
    (edges_eq : level.flatMap Node.edges = branches.edges)
    (limit : Nat) :
    levelWidthsFrom nodes (limit + 1) frontier =
      if branches.isNil then some []
      else
        (levelWidthsFrom nodes limit (branches.edges.map (·.2))).bind
          fun deeper =>
            some (ascending (branches.chunks.map List.length) :: deeper) := by
  rw [levelWidthsFrom, level_eq]
  simp only [Option.bind_eq_bind, Option.bind_some, edges_eq, isEmpty_edges]
  rw [← map_fst_edges, List.map_map]
  rfl

theorem endsWith_levelWidthsFrom
    {bound : Nat}
    {branches : Branches Nat}
    (bounded : branches.size ≤ bound)
    (found : branches.FoundIn nodes)
    {frontier : List Nat}
    {level : List Node}
    (level_eq : frontier.mapM (fun place => nodes[place]?) = some level)
    (edges_eq : level.flatMap Node.edges = branches.edges) :
    EndsWith (levelWidthsFrom nodes · frontier)
      (branches.levelWidthsWithin bound) := by
  have opened := levelWidthsFrom_eq level_eq edges_eq
  induction bound generalizing branches frontier level with
  | zero =>
    cases branches with
    | nil => exact (endsWith_some []).call opened
    | cons chunk tag terminal below rest => simp at bounded
  | succ bound hypothesis =>
    cases branches with
    | nil => exact (endsWith_some []).call opened
    | cons chunk tag terminal below rest =>
      obtain ⟨nextFound, next, next_eq, next_edges⟩ := mapM_edges found
      have deeper := hypothesis (size_nextLevel_le rfl bounded) nextFound
        next_eq next_edges (levelWidthsFrom_eq next_eq next_edges)
      exact (deeper.map (_ :: ·)).call opened

/-! ## From the root -/

section

variable
  {arena : Arena}
  {trie : Trie}

theorem Represents.get
    (represents : arena.Represents trie)
    (word : Bytes) :
    EndsWith (arena.get word) (trie.get? word) :=
  endsWith_getFrom represents.root word
    (endsWith_findSomeM?_getFrom represents.foundIn)

theorem Represents.words (represents : arena.Represents trie) :
    EndsWith arena.words trie.words := by
  refine endsWith_wordsFrom_cons represents.root
    (endsWith_wordsFrom_edges represents.foundIn ?_)
  have words_eq : [] ++ ownSpelling [] trie.terminal ++
      trie.branches.words.map (extend []) = trie.words := by
    rw [List.nil_append, Trie.words]
    congr 1
    exact List.map_id _
  rw [words_eq]
  exact (endsWith_some trie.words).call fun _ => rfl

theorem Represents.depth (represents : arena.Represents trie) :
    EndsWith arena.depth trie.depth := by
  obtain ⟨depths, measured, deepest⟩ :=
    endsWith_mapM_depthFrom represents.foundIn
  exact endsWith_depthFrom represents.root measured deepest

theorem Represents.levelWidths (represents : arena.Represents trie) :
    EndsWith arena.levelWidths trie.levelWidths := by
  have level_eq : [0].mapM (fun place => arena.nodes[place]?) =
      some [⟨0, trie.terminal, trie.branches.edges⟩] := by
    rw [List.mapM_cons, represents.root]
    rfl
  exact endsWith_levelWidthsFrom (Nat.le_refl _) represents.foundIn level_eq
    (List.append_nil _)

end

end Arena
end WordSwitch
