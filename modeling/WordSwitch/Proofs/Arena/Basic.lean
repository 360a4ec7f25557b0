import WordSwitch.Lexicon.OrderedMap
import WordSwitch.Trie.Length
import WordSwitch.Trie.Levels
import WordSwitch.Trie.Nodes
import WordSwitch.Trie.Recut

/-!
# Tries as arenas

An arena is a trie kept as a list of nodes, in which an edge names the place of
the node that it leads to.  A new node is appended without edges, and an edge
to it is added afterwards.  Nothing in the type says that an edge leads to a
node, or that following edges ends.  A computation therefore gets a limit on the
calls that it may nest, or on the turns of its loop.  It has no result if it
looks at a place without a node, or goes on beyond the limit; it ends if all
limits that are large enough give one result.
-/

namespace WordSwitch

/-- A computation has a result, and the same one, under all limits that are
large enough. -/
def EndsWith
    {α : Type}
    (computation : (limit : Nat) → Option α)
    (result : α) :
    Prop :=
  ∃ bound, ∀ limit, bound ≤ limit → computation limit = some result

section

variable
  {α β : Type}
  {computation : (limit : Nat) → Option α}
  {value : α}

theorem endsWith_some (value : α) : EndsWith (fun _ => some value) value :=
  ⟨0, fun _ _ => rfl⟩

/-- One computation ends after another. -/
theorem EndsWith.bind
    {next : (limit : Nat) → α → Option β}
    {result : β}
    (ends : EndsWith computation value)
    (nextEnds : EndsWith (next · value) result) :
    EndsWith (fun limit => (computation limit).bind (next limit)) result := by
  obtain ⟨bound, eq_some⟩ := ends
  obtain ⟨nextBound, next_eq_some⟩ := nextEnds
  refine ⟨max bound nextBound, fun limit enough => ?_⟩
  simp only [eq_some limit (Nat.le_trans (Nat.le_max_left _ _) enough),
    Option.bind_some]
  exact next_eq_some limit (Nat.le_trans (Nat.le_max_right _ _) enough)

theorem EndsWith.map
    (ends : EndsWith computation value)
    (change : α → β) :
    EndsWith (fun limit => (computation limit).bind fun given =>
      some (change given)) (change value) :=
  ends.bind (endsWith_some (change value))

/-- A call ends if what it does within one call less does. -/
theorem EndsWith.call
    {inner : (limit : Nat) → Option α}
    (ends : EndsWith inner value)
    (opens : ∀ limit, computation (limit + 1) = inner limit) :
    EndsWith computation value := by
  obtain ⟨bound, eq_some⟩ := ends
  refine ⟨bound + 1, fun limit enough => ?_⟩
  obtain ⟨more, rfl⟩ := Nat.exists_eq_add_of_le enough
  rw [Nat.add_right_comm, opens]
  exact eq_some _ (Nat.le_add_right _ _)

end

/-- Change the value of a key, or add the key, in a list whose keys ascend. -/
def changeAscending
    {ν : Type}
    (key : Bytes)
    (change : Option ν → ν) :
    List (Bytes × ν) → List (Bytes × ν)
  | [] => [(key, change none)]
  | (otherKey, value) :: rest =>
    if key = otherKey then (key, change (some value)) :: rest
    else if key < otherKey then
      (key, change none) :: (otherKey, value) :: rest
    else (otherKey, value) :: changeAscending key change rest

namespace Node

/-- A node without edges on which no word ends. -/
def bare (number : Nat) : Node :=
  ⟨number, none, []⟩

/-- Let an edge lead to a node. -/
def link (chunk : Bytes) (child : Nat) (node : Node) : Node :=
  { node with edges := changeAscending chunk (fun _ => child) node.edges }

/-- Let a word end on a node, or none. -/
def endWith (terminal : Option Enumerator) (node : Node) : Node :=
  { node with terminal := terminal }

/-- Give a node its edges. -/
def leadTo (edges : List (Bytes × Nat)) (node : Node) : Node :=
  { node with edges := edges }

end Node

/-- A list of nodes, each named by its place. -/
structure Arena where
  /-- The widest chunk that insertion cuts. -/
  maxWidth : Nat
  nodes : List Node
deriving DecidableEq, Repr

namespace Arena

/-- Append a node; its place is the number of nodes before. -/
def append (nodes : List Node) : List Node :=
  nodes ++ [Node.bare nodes.length]

/-- Change the node at a place. -/
def modify?
    (nodes : List Node)
    (place : Nat)
    (change : Node → Node) :
    Option (List Node) :=
  nodes[place]?.map fun node => nodes.set place (change node)

/-- The arena without words. -/
def empty (maxWidth : Nat) : Arena :=
  ⟨max maxWidth 1, [Node.bare 0]⟩

/-- The nodes of a trie, in the order of their numbers. -/
def ofTrie (trie : Trie) : Arena :=
  ⟨trie.maxWidth, trie.nodes⟩

/-! ## Insertion -/

/-- Go on to insert what is left of a word at a place.  The terminal that is
replaced comes with the nodes. -/
def insertFrom
    (maxWidth : Nat)
    (enumerator : Enumerator) :
    (limit place : Nat) → (word : Bytes) → (nodes : List Node) →
      Option (Option Enumerator × List Node)
  | 0, _, _, _ => none
  | limit + 1, place, word, nodes => do
    let node ← nodes[place]?
    if word.isEmpty then
      let ended ← modify? nodes place (Node.endWith (some enumerator))
      some (node.terminal, ended)
    else
      let width := Chunk.readWidth word.length maxWidth
      match findIn? (word.take width) node.edges with
      | some child =>
        insertFrom maxWidth enumerator limit child (word.drop width) nodes
      | none =>
        let child := nodes.length
        let linked ←
          modify? (append nodes) place (Node.link (word.take width) child)
        insertFrom maxWidth enumerator limit child (word.drop width) linked

/-- Let a word stand for an enumerator. -/
def insert
    (arena : Arena)
    (word : Bytes)
    (enumerator : Enumerator)
    (limit : Nat) :
    Option (Option Enumerator × Arena) := do
  let (replaced, nodes) ←
    insertFrom arena.maxWidth enumerator limit 0 word arena.nodes
  some (replaced, ⟨arena.maxWidth, nodes⟩)

/-! ## Words of one length -/

/-- The edges that are kept of a node, with the nodes that are copied. -/
abbrev Copying := List (Bytes × Nat) × List Node

/-- Copy the node at a place as a leaf, if a word ends there. -/
def keepLeaf
    (source : List Node)
    (place : Nat)
    (chunk : Bytes)
    (copying : Copying) :
    Option Copying := do
  let (kept, copy) := copying
  let node ← source[place]?
  match node.terminal with
  | none => some copying
  | some enumerator =>
    let leaf := copy.length
    let ended ← modify? (append copy) leaf (Node.endWith (some enumerator))
    some (changeAscending chunk (fun _ => leaf) kept, ended)

/-- Put a node above edges that are copied already, if there are any. -/
def keepInner
    (kept : List (Bytes × Nat))
    (chunk : Bytes)
    (copying : Copying) :
    Option Copying := do
  let (below, copy) := copying
  if below.isEmpty then
    some (kept, copy)
  else
    let inner := copy.length
    let linked ← modify? (append copy) inner (Node.leadTo below)
    some (changeAscending chunk (fun _ => inner) kept, linked)

/-- Copy the part below a place that leads to words of `remaining` bytes. -/
def restrictFrom
    (source : List Node) :
    (limit place remaining : Nat) → (copy : List Node) → Option Copying
  | 0, _, _, _ => none
  | limit + 1, place, remaining, copy => do
    let node ← source[place]?
    node.edges.foldlM
      (fun copying edge =>
        if edge.1.length = remaining then
          keepLeaf source edge.2 edge.1 copying
        else if edge.1.length < remaining then do
          let below ← restrictFrom source limit edge.2
            (remaining - edge.1.length) copying.2
          keepInner copying.1 edge.1 below
        else
          some copying)
      ([], copy)

/-- The arena of the words of one length; the inner `none` stands for no such
word. -/
def ofLength
    (arena : Arena)
    (length limit : Nat) :
    Option (Option Arena) := do
  let copy := empty arena.maxWidth
  if length = 0 then
    let root ← arena.nodes[0]?
    match root.terminal with
    | none => some none
    | some enumerator =>
      let ended ← modify? copy.nodes 0 (Node.endWith (some enumerator))
      some (some ⟨copy.maxWidth, ended⟩)
  else
    let (kept, nodes) ← restrictFrom arena.nodes limit 0 length copy.nodes
    if kept.isEmpty then
      some none
    else
      let linked ← modify? nodes 0 (Node.leadTo kept)
      some (some ⟨copy.maxWidth, linked⟩)

/-! ## Cutting again -/

/-- The edges that share their first bytes, after these are consumed, and the
terminal that is reached then. -/
structure Group where
  edges : List (Bytes × Nat)
  terminal : Option Enumerator
deriving DecidableEq, Repr

/-- Put an edge into the group of its first `width` bytes. -/
def collect
    (source : List Node)
    (width : Nat)
    (groups : List (Bytes × Group))
    (edge : Bytes × Nat) :
    Option (List (Bytes × Group)) := do
  let remainder := edge.1.drop width
  let target ← source[edge.2]?
  some (changeAscending (edge.1.take width)
    (fun group? =>
      let group := group?.getD ⟨[], none⟩
      if remainder.isEmpty then
        ⟨group.edges ++ target.edges, target.terminal.or group.terminal⟩
      else if target.isLeaf then
        ⟨group.edges ++ [(remainder, edge.2)], group.terminal⟩
      else
        ⟨group.edges ++ target.edges.map fun below =>
          (remainder ++ below.1, below.2), group.terminal⟩)
    groups)

/-- The width at which all pending edges may be cut. -/
def cutWidth (cutting : Cutting) (pending : List (Bytes × Nat)) : Nat :=
  ((pending.map fun edge =>
    Chunk.safeWidth cutting.ignoreCase cutting.maxWidth edge.1).min?).getD 1

/-- Build what pending edges lead to below a place of the recut nodes. -/
def fill
    (cutting : Cutting)
    (source : List Node) :
    (limit place : Nat) → (pending : List (Bytes × Nat)) →
      (terminal : Option Enumerator) → (recut : List Node) →
        Option (List Node)
  | 0, _, _, _, _ => none
  | limit + 1, place, pending, terminal, recut => do
    let ended ← modify? recut place (Node.endWith terminal)
    if pending.isEmpty then
      some ended
    else
      let groups ←
        pending.foldlM (collect source (cutWidth cutting pending)) []
      groups.foldlM
        (fun recut group => do
          let child := recut.length
          let linked ← modify? (append recut) place (Node.link group.1 child)
          fill cutting source limit child group.2.edges group.2.terminal
            linked)
        ended

/-- Recut an arena. -/
def recut
    (arena : Arena)
    (ignoreCase : Bool)
    (maxWidth limit : Nat) :
    Option Arena := do
  let cutting : Cutting := ⟨ignoreCase, max maxWidth 1⟩
  let root ← arena.nodes[0]?
  let nodes ← fill cutting arena.nodes limit 0 root.edges root.terminal
    (empty cutting.maxWidth).nodes
  some ⟨cutting.maxWidth, nodes⟩

/-! ## Looking at an arena -/

/-- The terminal that a word leads to from a place. -/
def getFrom
    (nodes : List Node) :
    (limit place : Nat) → (word : Bytes) → Option (Option Enumerator)
  | 0, _, _ => none
  | limit + 1, place, word => do
    let node ← nodes[place]?
    if word.isEmpty then
      some node.terminal
    else
      (node.edges.filter fun edge => edge.1.isPrefixOf word).findSomeM?
        fun (chunk, child) =>
          getFrom nodes limit child (word.drop chunk.length)

/-- What a word stands for. -/
def get
    (arena : Arena)
    (word : Bytes)
    (limit : Nat) :
    Option (Option Enumerator) :=
  getFrom arena.nodes limit 0 word

/-- All words from the places on a stack, each with the bytes that lead to it,
behind those that were found before. -/
def wordsFrom
    (nodes : List Node) :
    (limit : Nat) → (found : List Spelling) → (stack : List (Nat × Bytes)) →
      Option (List Spelling)
  | 0, _, _ => none
  | _ + 1, found, [] => some found
  | limit + 1, found, (place, spelled) :: stack => do
    let node ← nodes[place]?
    wordsFrom nodes limit
      (found ++ Branches.ownSpelling spelled node.terminal)
      (node.edges.map (fun edge => (edge.2, spelled ++ edge.1)) ++ stack)

/-- All words, a node's own word before those below it. -/
def words (arena : Arena) (limit : Nat) : Option (List Spelling) :=
  wordsFrom arena.nodes limit [] [(0, [])]

/-- The number of edges on the longest path from a place. -/
def depthFrom (nodes : List Node) : (limit place : Nat) → Option Nat
  | 0, _ => none
  | limit + 1, place => do
    let node ← nodes[place]?
    let depths ← node.edges.mapM fun edge => depthFrom nodes limit edge.2
    some (((depths.map (1 + ·)).max?).getD 0)

/-- The number of edges on the longest path. -/
def depth (arena : Arena) (limit : Nat) : Option Nat :=
  depthFrom arena.nodes limit 0

/-- The distinct widths on each level below the places of a frontier. -/
def levelWidthsFrom
    (nodes : List Node) :
    (limit : Nat) → (frontier : List Nat) → Option (List (List Nat))
  | 0, _ => none
  | limit + 1, frontier => do
    let level ← frontier.mapM fun place => nodes[place]?
    let edges := level.flatMap Node.edges
    if edges.isEmpty then
      some []
    else
      let deeper ← levelWidthsFrom nodes limit (edges.map (·.2))
      some (ascending (edges.map fun edge => edge.1.length) :: deeper)

/-- The distinct widths on each level below the root, ascending. -/
def levelWidths (arena : Arena) (limit : Nat) : Option (List (List Nat)) :=
  levelWidthsFrom arena.nodes limit [0]

end Arena

end WordSwitch
