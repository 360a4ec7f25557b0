import WordSwitch.Proofs.Trie.Length

/-!
# The paths of a trie for one length

Restricting a trie to a length keeps the paths to terminals that spell as many
bytes.  Branches in ascending order whose leaves all carry terminals are
determined by the paths to them, so the trie for a length is determined by the
words of that length, whatever else was inserted and in which order.
-/

namespace WordSwitch

namespace Branches

variable {ι : Type}

/-- Every path to a terminal is the cut of the word that it spells. -/
def PathsCut (maxWidth : Nat) (branches : Branches ι) : Prop :=
  ∀ chunk path member, branches.terminalAt? chunk path = some member →
    Chunk.cut maxWidth (chunk :: path).flatten = chunk :: path

/-! ## Shapes -/

@[simp] theorem sorted_shape {branches : Branches ι} :
    branches.shape.Sorted ↔ branches.Sorted := by
  induction branches with
  | nil => rfl
  | cons chunk tag terminal below rest below_iff rest_iff =>
    simp [shape, Sorted, below_iff, rest_iff]

@[simp] theorem terminalAt?_shape
    (branches : Branches ι)
    (chunk : Bytes)
    (path : List Bytes) :
    branches.shape.terminalAt? chunk path = branches.terminalAt? chunk path := by
  induction branches generalizing chunk path with
  | nil => rfl
  | cons key tag terminal below rest below_eq rest_eq =>
    cases path <;> simp [shape, terminalAt?, below_eq, rest_eq]

/-! ## Appended edges -/

theorem sorted_append {branches others : Branches ι} :
    (branches.append others).Sorted ↔
      branches.Sorted ∧ others.Sorted ∧
      ∀ chunk ∈ branches.chunks, ∀ other ∈ others.chunks, chunk < other := by
  induction branches with
  | nil => simp [append, Sorted, chunks]
  | cons key tag terminal below rest _ rest_iff =>
    simp only [append, Sorted, rest_iff, chunks_append, chunks,
      List.mem_append, List.forall_mem_cons, or_imp, forall_and]
    grind

theorem terminalAt?_append_of_not_mem_left
    {branches others : Branches ι}
    {chunk : Bytes}
    (absent : chunk ∉ branches.chunks)
    (path : List Bytes) :
    (branches.append others).terminalAt? chunk path =
      others.terminalAt? chunk path := by
  induction branches with
  | nil => rfl
  | cons key tag terminal below rest _ rest_eq =>
    rw [chunks, List.mem_cons, not_or] at absent
    rw [append, terminalAt?_cons_of_ne absent.1, rest_eq absent.2]

theorem terminalAt?_append_of_not_mem_right
    {branches others : Branches ι}
    {chunk : Bytes}
    (absent : chunk ∉ others.chunks)
    (path : List Bytes) :
    (branches.append others).terminalAt? chunk path =
      branches.terminalAt? chunk path := by
  induction branches with
  | nil => exact terminalAt?_of_not_mem absent path
  | cons key tag terminal below rest _ rest_eq =>
    cases path <;> simp [append, terminalAt?, rest_eq]

/-! ## Paths to terminals -/

theorem mem_chunks_of_terminalAt?
    {branches : Branches ι}
    {chunk : Bytes}
    {path : List Bytes}
    {member : Enumerator}
    (found : branches.terminalAt? chunk path = some member) :
    chunk ∈ branches.chunks := by
  by_contra absent
  rw [terminalAt?_of_not_mem absent] at found
  cases found

@[simp] theorem terminalAt?_cons_self
    (chunk : Bytes)
    (path : List Bytes)
    (tag : ι)
    (terminal : Option Enumerator)
    (below rest : Branches ι) :
    (cons chunk tag terminal below rest).terminalAt? chunk path =
      match path with
      | [] => terminal
      | second :: path => below.terminalAt? second path := by
  cases path <;> simp [terminalAt?]

/-- If words end at every leaf, every chunk of an edge begins a path to a
terminal. -/
theorem WordsAtLeaves.exists_path
    {branches : Branches ι}
    (leaves : branches.WordsAtLeaves)
    (sorted : branches.Sorted)
    {chunk : Bytes}
    (listed : chunk ∈ branches.chunks) :
    ∃ path member, branches.terminalAt? chunk path = some member := by
  induction branches generalizing chunk with
  | nil => cases listed
  | cons key tag terminal below rest below_path rest_path =>
    obtain ⟨leaf, belowLeaves, restLeaves⟩ := leaves
    obtain ⟨first, belowSorted, restSorted⟩ := sorted
    rcases List.mem_cons.mp listed with rfl | later
    · cases terminal with
      | some member => exact ⟨[], member, by simp⟩
      | none =>
        cases below with
        | nil => cases leaf
        | cons second otherTag otherTerminal further others =>
          obtain ⟨path, member, found⟩ :=
            below_path belowLeaves belowSorted List.mem_cons_self
          exact ⟨second :: path, member, by simpa using found⟩
    · have different : chunk ≠ key := by
        rintro rfl
        exact List.lt_irrefl chunk (first chunk later)
      obtain ⟨path, member, found⟩ := rest_path restLeaves restSorted later
      refine ⟨path, member, ?_⟩
      rw [terminalAt?_cons_of_ne different]
      exact found

/-- The first chunks of branches in ascending order are the same if each is
among the chunks of the other branches. -/
theorem Sorted.head_eq
    {key other : Bytes}
    {rest otherRest : Branches ι}
    (first : ∀ chunk ∈ rest.chunks, key < chunk)
    (otherFirst : ∀ chunk ∈ otherRest.chunks, other < chunk)
    (key_mem : key ∈ other :: otherRest.chunks)
    (other_mem : other ∈ key :: rest.chunks) :
    key = other := by
  rcases List.mem_cons.mp key_mem with equal | later
  · exact equal
  rcases List.mem_cons.mp other_mem with equal | otherLater
  · exact equal.symm
  · exact absurd (List.lt_trans (otherFirst key later) (first other otherLater))
      (List.lt_irrefl other)

/-- Branches in ascending order whose leaves all carry terminals are determined
by the paths to them. -/
theorem Sorted.ext
    {first second : Branches Unit}
    (firstSorted : first.Sorted)
    (secondSorted : second.Sorted)
    (firstLeaves : first.WordsAtLeaves)
    (secondLeaves : second.WordsAtLeaves)
    (same : ∀ chunk path,
      first.terminalAt? chunk path = second.terminalAt? chunk path) :
    first = second := by
  induction first generalizing second with
  | nil =>
    cases second with
    | nil => rfl
    | cons key tag terminal below rest =>
      obtain ⟨path, member, found⟩ :=
        secondLeaves.exists_path secondSorted List.mem_cons_self
      rw [← same] at found
      cases found
  | cons key tag terminal below rest below_ext rest_ext =>
    obtain ⟨path, member, found⟩ :=
      firstLeaves.exists_path firstSorted List.mem_cons_self
    have key_mem := mem_chunks_of_terminalAt? (same key path ▸ found)
    cases second with
    | nil => cases key_mem
    | cons otherKey otherTag otherTerminal otherBelow otherRest =>
      obtain ⟨otherPath, otherMember, otherFound⟩ :=
        secondLeaves.exists_path secondSorted List.mem_cons_self
      have otherKey_mem :=
        mem_chunks_of_terminalAt? ((same otherKey otherPath).trans otherFound)
      obtain rfl : key = otherKey :=
        head_eq firstSorted.1 secondSorted.1 key_mem otherKey_mem
      have terminal_eq : terminal = otherTerminal := by
        simpa using same key []
      have below_eq : below = otherBelow := by
        refine below_ext firstSorted.2.1 secondSorted.2.1 firstLeaves.2.1
          secondLeaves.2.1 ?_
        intro chunk path
        simpa using same key (chunk :: path)
      have rest_eq : rest = otherRest := by
        refine rest_ext firstSorted.2.2 secondSorted.2.2 firstLeaves.2.2
          secondLeaves.2.2 ?_
        intro chunk path
        by_cases equal : chunk = key
        · subst equal
          have absent : chunk ∉ rest.chunks := fun later =>
            List.lt_irrefl chunk (firstSorted.1 chunk later)
          have otherAbsent : chunk ∉ otherRest.chunks := fun later =>
            List.lt_irrefl chunk (secondSorted.1 chunk later)
          rw [terminalAt?_of_not_mem absent,
            terminalAt?_of_not_mem otherAbsent]
        · have equal_paths := same chunk path
          rw [terminalAt?_cons_of_ne equal,
            terminalAt?_cons_of_ne equal] at equal_paths
          exact equal_paths
      rw [terminal_eq, below_eq, rest_eq]

/-! ## One length -/

theorem chunks_keptEdge_subset
    {key : Bytes}
    {terminal : Option Enumerator}
    {kept : Branches Unit}
    {length : Nat}
    {chunk : Bytes}
    (listed : chunk ∈ (keptEdge key terminal kept length).chunks) :
    chunk = key := by
  unfold keptEdge at listed
  split at listed
  · cases terminal with
    | none => cases listed
    | some enumerator => exact List.mem_singleton.mp listed
  · split at listed
    · cases kept with
      | nil => cases listed
      | cons _ _ _ _ _ => exact List.mem_singleton.mp listed
    · cases listed

theorem mem_chunks_of_mem_chunks_ofLength
    {branches : Branches ι}
    {length : Nat}
    {chunk : Bytes}
    (listed : chunk ∈ (branches.ofLength length).chunks) :
    chunk ∈ branches.chunks := by
  induction branches with
  | nil => exact listed
  | cons key tag terminal below rest _ rest_mem =>
    rw [ofLength_cons, chunks_append, List.mem_append] at listed
    rcases listed with here | later
    · rw [chunks_keptEdge_subset here]
      exact List.mem_cons_self
    · exact List.mem_cons_of_mem key (rest_mem later)

theorem Sorted.ofLength
    {branches : Branches ι}
    (sorted : branches.Sorted)
    (length : Nat) :
    (branches.ofLength length).Sorted := by
  induction branches generalizing length with
  | nil => trivial
  | cons key tag terminal below rest below_sorted rest_sorted =>
    obtain ⟨first, belowSorted, restSorted⟩ := sorted
    rw [ofLength_cons, sorted_append]
    refine ⟨?_, rest_sorted restSorted length, ?_⟩
    · have keptSorted := below_sorted belowSorted (length - key.length)
      unfold keptEdge
      split
      · cases terminal with
        | none => trivial
        | some enumerator => exact ⟨by simp [chunks], trivial, trivial⟩
      · split
        · cases kept : below.ofLength (length - key.length) with
          | nil => trivial
          | cons _ _ _ _ _ =>
            exact ⟨by simp [chunks], kept ▸ keptSorted, trivial⟩
        · trivial
    · intro chunk here other later
      rw [chunks_keptEdge_subset here]
      exact first other (mem_chunks_of_mem_chunks_ofLength later)

/-- A path along what is left of one edge ends there, or goes on below it. -/
theorem terminalAt?_keptEdge_eq_some_iff
    {key : Bytes}
    {terminal : Option Enumerator}
    {kept : Branches Unit}
    {length : Nat}
    {path : List Bytes}
    {member : Enumerator} :
    (keptEdge key terminal kept length).terminalAt? key path = some member ↔
      match path with
      | [] => key.length = length ∧ terminal = some member
      | second :: path =>
        key.length < length ∧ kept.terminalAt? second path = some member := by
  unfold keptEdge
  split
  · next equal =>
    cases terminal with
    | none => cases path <;> simp [terminalAt?, equal]
    | some enumerator => cases path <;> simp [terminalAt?, equal]
  · next different =>
    split
    · next shorter =>
      cases kept with
      | nil => cases path <;> simp [terminalAt?, different]
      | cons _ _ _ _ _ =>
        rw [terminalAt?_cons_self]
        cases path <;> simp [different, shorter]
    · next notShorter =>
      cases path <;> simp [terminalAt?, different, notShorter]

/-- Restricting branches to a length keeps the paths to terminals that spell as
many bytes. -/
theorem terminalAt?_ofLength_eq_some_iff
    {branches : Branches ι}
    (sorted : branches.Sorted)
    (nonempty : branches.EveryChunk (· ≠ []))
    {length : Nat}
    {chunk : Bytes}
    {path : List Bytes}
    {member : Enumerator} :
    (branches.ofLength length).terminalAt? chunk path = some member ↔
      branches.terminalAt? chunk path = some member ∧
      (chunk :: path).flatten.length = length := by
  induction branches generalizing length chunk path with
  | nil => simp [ofLength, terminalAt?]
  | cons key tag terminal below rest below_iff rest_iff =>
    obtain ⟨first, belowSorted, restSorted⟩ := sorted
    obtain ⟨_, belowNonempty, restNonempty⟩ := nonempty
    rw [ofLength_cons]
    by_cases equal : chunk = key
    · subst equal
      have absent : chunk ∉ (rest.ofLength length).chunks := fun later =>
        List.lt_irrefl chunk
          (first chunk (mem_chunks_of_mem_chunks_ofLength later))
      rw [terminalAt?_append_of_not_mem_right absent,
        terminalAt?_keptEdge_eq_some_iff, terminalAt?_cons_self]
      cases path with
      | nil => simp [and_comm]
      | cons second path =>
        simp only [below_iff belowSorted belowNonempty, List.flatten_cons,
          List.length_append]
        constructor
        · rintro ⟨shorter, found, total⟩
          exact ⟨found, by omega⟩
        · rintro ⟨found, total⟩
          have positive := List.length_pos_iff.mpr
            (belowNonempty.of_mem_chunks (mem_chunks_of_terminalAt? found))
          exact ⟨by omega, found, by omega⟩
    · have absent : chunk ∉ (keptEdge key terminal
          (below.ofLength (length - key.length)) length).chunks :=
        fun here => equal (chunks_keptEdge_subset here)
      rw [terminalAt?_append_of_not_mem_left absent,
        terminalAt?_cons_of_ne equal, rest_iff restSorted restNonempty]

end Branches

namespace Trie

@[simp] theorem terminal?_nil (trie : Trie) : trie.terminal? [] = trie.terminal :=
  rfl

/-- The paths to terminals are the cuts of the words. -/
theorem Canonical.terminal?_eq_some_iff
    {trie : Trie}
    (canonical : trie.Canonical)
    {path : List Bytes}
    {member : Enumerator} :
    trie.terminal? path = some member ↔
      Chunk.cut trie.maxWidth path.flatten = path ∧
      (path.flatten, member) ∈ trie.words := by
  rw [canonical.mem_words_iff]
  constructor
  · intro found
    have pieces := canonical.cut path member found
    exact ⟨pieces, by rw [pieces]; exact found⟩
  · rintro ⟨pieces, found⟩
    rw [← pieces]
    exact found

theorem Canonical.pathsCut
    {trie : Trie}
    (canonical : trie.Canonical) :
    trie.branches.PathsCut trie.maxWidth :=
  fun chunk path => canonical.cut (chunk :: path)

theorem maxWidth_ofLength?
    {trie restricted : Trie}
    {length : Nat}
    (restriction : trie.ofLength? length = some restricted) :
    restricted.maxWidth = trie.maxWidth := by
  obtain ⟨_, _, _, rfl⟩ | ⟨_, _, rfl⟩ := ofLength?_eq_some_iff.mp restriction <;>
    rfl

/-- Restricting a trie to a length keeps that its paths are cuts. -/
theorem Canonical.ofLength?
    {trie restricted : Trie}
    (canonical : trie.Canonical)
    {length : Nat}
    (restriction : trie.ofLength? length = some restricted) :
    restricted.Canonical := by
  have nonempty := everyChunk_ofLength? canonical.nonempty restriction
  obtain ⟨_, enumerator, _, rfl⟩ | ⟨_, _, rfl⟩ :=
    ofLength?_eq_some_iff.mp restriction
  · refine ⟨trivial, nonempty, ?_⟩
    intro path member found
    cases path with
    | nil => rfl
    | cons chunk path => cases found
  · refine ⟨?_, nonempty, ?_⟩
    · rw [← Branches.sorted_shape, Branches.shape_numberUpward,
        Branches.shape_unit]
      exact canonical.sorted.ofLength length
    · intro path member found
      cases path with
      | nil => cases found
      | cons chunk path =>
        rw [terminal?, ← Branches.terminalAt?_shape,
          Branches.shape_numberUpward, Branches.shape_unit,
          Branches.terminalAt?_ofLength_eq_some_iff canonical.sorted
            canonical.nonempty] at found
        exact canonical.cut (chunk :: path) member found.1

/-- The trie for a length is determined by the words of that length. -/
theorem Canonical.ofLength?_congr
    {first second : Trie}
    (firstCanonical : first.Canonical)
    (secondCanonical : second.Canonical)
    (maxWidth_eq : first.maxWidth = second.maxWidth)
    {length : Nat}
    (same : ∀ word member, word.length = length →
      ((word, member) ∈ first.words ↔ (word, member) ∈ second.words)) :
    first.ofLength? length = second.ofLength? length := by
  have paths_iff : ∀ path member, path.flatten.length = length →
      (first.terminal? path = some member ↔
        second.terminal? path = some member) := by
    intro path member length_eq
    rw [firstCanonical.terminal?_eq_some_iff,
      secondCanonical.terminal?_eq_some_iff, maxWidth_eq,
      same path.flatten member length_eq]
  unfold Trie.ofLength?
  rw [maxWidth_eq]
  split
  · next empty =>
    have terminal_eq : first.terminal = second.terminal :=
      Option.ext fun member => paths_iff [] member (by simp [empty])
    rw [terminal_eq]
  · have branches_eq : first.branches.ofLength length =
        second.branches.ofLength length := by
      refine (firstCanonical.sorted.ofLength length).ext
        (secondCanonical.sorted.ofLength length)
        (Branches.wordsAtLeaves_ofLength _ length)
        (Branches.wordsAtLeaves_ofLength _ length) ?_
      intro chunk path
      refine Option.ext fun member => ?_
      rw [Branches.terminalAt?_ofLength_eq_some_iff firstCanonical.sorted
          firstCanonical.nonempty,
        Branches.terminalAt?_ofLength_eq_some_iff secondCanonical.sorted
          secondCanonical.nonempty]
      exact and_congr_left (paths_iff (chunk :: path) member)
    rw [branches_eq]

end Trie
end WordSwitch
