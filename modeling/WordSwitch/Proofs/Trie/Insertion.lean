import Mathlib.Logic.Basic
import Mathlib.Tactic.ByContra
import WordSwitch.Proofs.Chunk.Cut
import WordSwitch.Proofs.Trie.Shape
import WordSwitch.Trie.Basic

/-!
# What insertion does to a trie

Insertion keeps the edges of every node in ascending order, and it changes the
terminal at the end of one path, the cut of the inserted word.  In a trie that
is built by insertion every path to a terminal is the cut of the word it
spells, so the words of the trie change by that word alone.
-/

namespace WordSwitch

namespace Branches

variable {ι : Type}

/-- The edges that leave a node are in ascending order of their chunks, at
every node. -/
def Sorted : Branches ι → Prop
  | nil => True
  | cons chunk _ _ below rest =>
    (∀ other ∈ rest.chunks, chunk < other) ∧ below.Sorted ∧ rest.Sorted

theorem pairwise_chunks
    {branches : Branches ι}
    (sorted : branches.Sorted) :
    branches.chunks.Pairwise (· < ·) := by
  induction branches with
  | nil => exact List.Pairwise.nil
  | cons chunk tag terminal below rest _ rest_pairwise =>
    exact List.pairwise_cons.mpr ⟨sorted.1, rest_pairwise sorted.2.2⟩

theorem terminalAt?_cons_of_ne
    {chunk key : Bytes}
    (different : chunk ≠ key)
    (path : List Bytes)
    (tag : ι)
    (terminal : Option Enumerator)
    (below rest : Branches ι) :
    (cons key tag terminal below rest).terminalAt? chunk path =
      rest.terminalAt? chunk path := by
  cases path <;> simp [terminalAt?, different]

theorem insert_cons_of_ne
    {chunk key : Bytes}
    (different : chunk ≠ key)
    (next : Nat)
    (enumerator : Enumerator)
    (path : List Bytes)
    (tag : Nat)
    (terminal : Option Enumerator)
    (below rest : Branches Nat) :
    (cons key tag terminal below rest).insert next enumerator chunk path =
      if chunk < key then
        chain next enumerator chunk path (cons key tag terminal below rest)
      else
        cons key tag terminal below
          (rest.insert next enumerator chunk path) := by
  cases path <;> simp [insert, different]

theorem terminalAt?_of_not_mem
    {branches : Branches ι}
    {chunk : Bytes}
    (absent : chunk ∉ branches.chunks)
    (path : List Bytes) :
    branches.terminalAt? chunk path = none := by
  induction branches with
  | nil => rfl
  | cons key tag terminal below rest _ rest_none =>
    rw [chunks, List.mem_cons, not_or] at absent
    rw [terminalAt?_cons_of_ne absent.1]
    exact rest_none absent.2

/-! ## One path -/

theorem terminalAt?_chain
    (next : Nat)
    (enumerator : Enumerator)
    (chunk : Bytes)
    (path : List Bytes)
    (others : Branches Nat)
    (other : Bytes)
    (otherPath : List Bytes) :
    (chain next enumerator chunk path others).terminalAt? other otherPath =
      if other = chunk then
        if otherPath = path then some enumerator else none
      else others.terminalAt? other otherPath := by
  induction path generalizing next chunk others other otherPath with
  | nil =>
    by_cases equal : other = chunk
    · cases otherPath <;> simp [chain, terminalAt?, equal]
    · simp [chain, terminalAt?, equal]
  | cons second path hypothesis =>
    by_cases equal : other = chunk
    · cases otherPath with
      | nil => simp [chain, terminalAt?, equal]
      | cons otherSecond otherPath =>
        simp only [chain, terminalAt?, equal, if_true, hypothesis,
          List.cons.injEq]
        by_cases same : otherSecond = second <;> simp [same]
    · simp [chain, terminalAt?, equal]

@[simp] theorem chunks_chain
    (next : Nat)
    (enumerator : Enumerator)
    (chunk : Bytes)
    (path : List Bytes)
    (others : Branches Nat) :
    (chain next enumerator chunk path others).chunks =
      chunk :: others.chunks := by
  cases path <;> rfl

theorem mem_chunks_insert
    {next : Nat}
    {enumerator : Enumerator}
    {branches : Branches Nat}
    {chunk other : Bytes}
    {path : List Bytes} :
    other ∈ (branches.insert next enumerator chunk path).chunks ↔
      other = chunk ∨ other ∈ branches.chunks := by
  induction branches with
  | nil => simp [insert, chunks]
  | cons key tag terminal below rest _ rest_iff =>
    by_cases equal : chunk = key
    · cases path <;> simp [insert, chunks, equal]
    · rw [insert_cons_of_ne equal]
      split
      · simp [chunks]
      · simp only [chunks, List.mem_cons, rest_iff]
        exact or_left_comm

/-- Insertion leads one path to the enumerator and leaves all others. -/
theorem terminalAt?_insert
    {branches : Branches Nat}
    (sorted : branches.Sorted)
    (next : Nat)
    (enumerator : Enumerator)
    (chunk : Bytes)
    (path : List Bytes)
    (other : Bytes)
    (otherPath : List Bytes) :
    (branches.insert next enumerator chunk path).terminalAt? other otherPath =
      if other = chunk ∧ otherPath = path then some enumerator
      else branches.terminalAt? other otherPath := by
  induction branches generalizing chunk path other otherPath with
  | nil =>
    rw [insert, terminalAt?_chain]
    by_cases equal : other = chunk <;> simp [equal, terminalAt?]
  | cons key tag terminal below rest below_insert rest_insert =>
    obtain ⟨first, below_sorted, rest_sorted⟩ := sorted
    by_cases different : chunk ≠ key
    · rw [insert_cons_of_ne different]
      split
      · next before =>
        rw [terminalAt?_chain]
        by_cases same : other = chunk
        · have absent : chunk ∉ (cons key tag terminal below rest).chunks := by
            rw [chunks, List.mem_cons]
            rintro (equal | later)
            · exact different equal
            · have between := List.lt_trans before (first chunk later)
              exact List.lt_irrefl chunk between
          rw [same, terminalAt?_of_not_mem absent]
          simp
        · simp [same]
      · by_cases same : other = key
        · have apart : ¬(other = chunk ∧ otherPath = path) := by
            rintro ⟨equal, _⟩
            exact different (equal.symm.trans same)
          rw [if_neg apart]
          cases otherPath <;> simp [terminalAt?, same]
        · rw [terminalAt?_cons_of_ne same, terminalAt?_cons_of_ne same]
          exact rest_insert rest_sorted chunk path other otherPath
    · have equal : chunk = key := not_ne_iff.mp different
      subst equal
      by_cases same : other = chunk
      · cases path with
        | nil => cases otherPath <;> simp [insert, terminalAt?, same]
        | cons second path =>
          cases otherPath with
          | nil => simp [insert, terminalAt?, same]
          | cons otherSecond otherPath =>
            simp [insert, terminalAt?, same, below_insert below_sorted]
      · cases path <;> simp [insert, terminalAt?_cons_of_ne, same]

theorem sorted_chain
    (next : Nat)
    (enumerator : Enumerator)
    {chunk : Bytes}
    (path : List Bytes)
    {others : Branches Nat}
    (first : ∀ other ∈ others.chunks, chunk < other)
    (sorted : others.Sorted) :
    (chain next enumerator chunk path others).Sorted := by
  induction path generalizing next chunk others with
  | nil => exact ⟨first, trivial, sorted⟩
  | cons second path hypothesis =>
    refine ⟨first, hypothesis (next + 1) ?_ trivial, sorted⟩
    simp [chunks]

theorem Sorted.insert
    {branches : Branches Nat}
    (sorted : branches.Sorted)
    (next : Nat)
    (enumerator : Enumerator)
    (chunk : Bytes)
    (path : List Bytes) :
    (branches.insert next enumerator chunk path).Sorted := by
  induction branches generalizing chunk path with
  | nil => exact sorted_chain next enumerator path (by simp [chunks]) trivial
  | cons key tag terminal below rest below_insert rest_insert =>
    obtain ⟨first, below_sorted, rest_sorted⟩ := sorted
    by_cases different : chunk ≠ key
    · rw [insert_cons_of_ne different]
      split
      · next before =>
        refine sorted_chain next enumerator path ?_
          ⟨first, below_sorted, rest_sorted⟩
        intro other listed
        rcases List.mem_cons.mp listed with rfl | later
        · exact before
        · exact List.lt_trans before (first other later)
      · next notBefore =>
        refine ⟨?_, below_sorted, rest_insert rest_sorted chunk path⟩
        intro other listed
        rcases mem_chunks_insert.mp listed with rfl | old
        · by_contra notAfter
          exact different (List.le_antisymm
            (List.not_lt.mp notAfter) (List.not_lt.mp notBefore))
        · exact first other old
    · have equal : chunk = key := not_ne_iff.mp different
      subst equal
      cases path with
      | nil =>
        simp only [Branches.insert, if_true]
        exact ⟨first, below_sorted, rest_sorted⟩
      | cons second path =>
        simp only [Branches.insert, if_true]
        exact ⟨first, below_insert below_sorted second path, rest_sorted⟩

theorem everyChunk_chain
    {property : Bytes → Prop}
    (next : Nat)
    (enumerator : Enumerator)
    {chunk : Bytes}
    {path : List Bytes}
    {others : Branches Nat}
    (new : ∀ piece ∈ chunk :: path, property piece)
    (every : others.EveryChunk property) :
    (chain next enumerator chunk path others).EveryChunk property := by
  induction path generalizing next chunk others with
  | nil => exact ⟨new chunk List.mem_cons_self, trivial, every⟩
  | cons second path hypothesis =>
    refine ⟨new chunk List.mem_cons_self,
      hypothesis (next + 1) ?_ trivial, every⟩
    intro piece listed
    exact new piece (List.mem_cons_of_mem chunk listed)

theorem EveryChunk.insert
    {property : Bytes → Prop}
    {branches : Branches Nat}
    (every : branches.EveryChunk property)
    (next : Nat)
    (enumerator : Enumerator)
    {chunk : Bytes}
    {path : List Bytes}
    (new : ∀ piece ∈ chunk :: path, property piece) :
    (branches.insert next enumerator chunk path).EveryChunk property := by
  induction branches generalizing chunk path with
  | nil => exact everyChunk_chain next enumerator new trivial
  | cons key tag terminal below rest below_insert rest_insert =>
    obtain ⟨holds, below_every, rest_every⟩ := every
    by_cases different : chunk ≠ key
    · rw [insert_cons_of_ne different]
      split
      · exact everyChunk_chain next enumerator new
          ⟨holds, below_every, rest_every⟩
      · exact ⟨holds, below_every, rest_insert rest_every new⟩
    · have equal : chunk = key := not_ne_iff.mp different
      subst equal
      cases path with
      | nil =>
        simp only [Branches.insert, if_true]
        exact ⟨holds, below_every, rest_every⟩
      | cons second path =>
        simp only [Branches.insert, if_true]
        refine ⟨holds, below_insert below_every ?_, rest_every⟩
        intro piece listed
        exact new piece (List.mem_cons_of_mem chunk listed)

/-- The words of branches are spelled by the paths to terminals. -/
theorem Sorted.mem_words_iff
    {branches : Branches ι}
    (sorted : branches.Sorted)
    {word : Bytes}
    {member : Enumerator} :
    (word, member) ∈ branches.words ↔
      ∃ chunk path, (chunk :: path).flatten = word ∧
        branches.terminalAt? chunk path = some member := by
  induction branches generalizing word with
  | nil => simp [terminalAt?]
  | cons key tag terminal below rest below_iff rest_iff =>
    obtain ⟨first, below_sorted, rest_sorted⟩ := sorted
    rw [mem_words_cons, rest_iff rest_sorted]
    constructor
    · rintro (⟨rfl, ends⟩ | ⟨tail, rfl, inside⟩ | ⟨chunk, path, spelled, found⟩)
      · exact ⟨word, [], by simp, by simpa [terminalAt?] using ends⟩
      · obtain ⟨second, path, rfl, found⟩ := (below_iff below_sorted).mp inside
        exact ⟨key, second :: path, rfl, by simpa [terminalAt?] using found⟩
      · refine ⟨chunk, path, spelled, ?_⟩
        have different : chunk ≠ key := by
          rintro rfl
          have listed : chunk ∈ rest.chunks := by
            by_contra absent
            simp [terminalAt?_of_not_mem absent] at found
          exact List.lt_irrefl chunk (first chunk listed)
        rw [terminalAt?_cons_of_ne different]
        exact found
    · rintro ⟨chunk, path, spelled, found⟩
      by_cases equal : chunk = key
      · subst equal
        cases path with
        | nil =>
          refine Or.inl ⟨by simpa using spelled.symm, ?_⟩
          simpa [terminalAt?] using found
        | cons second path =>
          refine Or.inr (Or.inl ⟨(second :: path).flatten, spelled.symm, ?_⟩)
          refine (below_iff below_sorted).mpr ⟨second, path, rfl, ?_⟩
          simpa [terminalAt?] using found
      · rw [terminalAt?_cons_of_ne equal] at found
        exact Or.inr (Or.inr ⟨chunk, path, spelled, found⟩)

end Branches

namespace Trie

/-- The terminal at the end of a path from the root. -/
def terminal? (trie : Trie) : (path : List Bytes) → Option Enumerator
  | [] => trie.terminal
  | chunk :: path => trie.branches.terminalAt? chunk path

/-- What holds of every trie that is built by insertion. -/
structure Canonical (trie : Trie) : Prop where
  sorted : trie.branches.Sorted
  nonempty : trie.branches.EveryChunk (· ≠ [])
  /-- Every path to a terminal is the cut of the word that it spells. -/
  cut : ∀ path member, trie.terminal? path = some member →
    Chunk.cut trie.maxWidth path.flatten = path

@[simp] theorem maxWidth_insert
    (trie : Trie)
    (word : Bytes)
    (enumerator : Enumerator) :
    (trie.insert word enumerator).maxWidth = trie.maxWidth := by
  unfold insert
  split <;> rfl

theorem canonical_empty (maxWidth : Nat) : (empty maxWidth).Canonical := by
  refine ⟨trivial, trivial, ?_⟩
  intro path member found
  cases path <;> simp [terminal?, empty, Branches.terminalAt?] at found

/-- Insertion changes the terminal at the end of the cut of the word. -/
theorem Canonical.terminal?_insert
    {trie : Trie}
    (canonical : trie.Canonical)
    (word : Bytes)
    (enumerator : Enumerator)
    (path : List Bytes) :
    (trie.insert word enumerator).terminal? path =
      if path = Chunk.cut trie.maxWidth word then some enumerator
      else trie.terminal? path := by
  unfold insert
  cases wordCut : Chunk.cut trie.maxWidth word with
  | nil => cases path <;> simp [terminal?]
  | cons chunk rest =>
    cases path with
    | nil => simp [terminal?]
    | cons first path =>
      simp only [terminal?, List.cons.injEq]
      exact Branches.terminalAt?_insert canonical.sorted trie.size enumerator
        chunk rest first path

theorem Canonical.insert
    {trie : Trie}
    (canonical : trie.Canonical)
    (word : Bytes)
    (enumerator : Enumerator) :
    (trie.insert word enumerator).Canonical := by
  refine ⟨?_, ?_, ?_⟩
  · unfold Trie.insert
    split
    · exact canonical.sorted
    · exact canonical.sorted.insert ..
  · unfold Trie.insert
    split
    · exact canonical.nonempty
    · next chunk path wordCut =>
      refine canonical.nonempty.insert _ enumerator ?_
      intro piece listed
      exact (Chunk.mem_cut (wordCut ▸ listed)).1
  · intro path member found
    rw [canonical.terminal?_insert] at found
    rw [maxWidth_insert]
    split at found
    · next equal => rw [equal, Chunk.flatten_cut]
    · exact canonical.cut path member found

theorem Canonical.foldl_insert
    {trie : Trie}
    (canonical : trie.Canonical)
    (insertions : List Spelling) :
    (insertions.foldl (fun trie spelling => trie.insert spelling.1 spelling.2)
      trie).Canonical := by
  induction insertions generalizing trie with
  | nil => exact canonical
  | cons spelling rest hypothesis =>
    exact hypothesis (canonical.insert spelling.1 spelling.2)

theorem everyChunk_insert
    {property : Bytes → Prop}
    {trie : Trie}
    (every : trie.branches.EveryChunk property)
    {word : Bytes}
    (enumerator : Enumerator)
    (new : ∀ piece ∈ Chunk.cut trie.maxWidth word, property piece) :
    (trie.insert word enumerator).branches.EveryChunk property := by
  unfold insert
  split
  · exact every
  · next chunk path wordCut =>
    exact every.insert _ enumerator (wordCut ▸ new)

theorem mem_words_iff_of_sorted
    {trie : Trie}
    (sorted : trie.branches.Sorted)
    {word : Bytes}
    {member : Enumerator} :
    (word, member) ∈ trie.words ↔
      ∃ path, path.flatten = word ∧ trie.terminal? path = some member := by
  rw [words, List.mem_append, Branches.mem_ownSpelling, sorted.mem_words_iff]
  constructor
  · rintro (⟨rfl, own⟩ | ⟨chunk, path, spelled, found⟩)
    · exact ⟨[], rfl, own⟩
    · exact ⟨chunk :: path, spelled, found⟩
  · rintro ⟨path, spelled, found⟩
    cases path with
    | nil => exact Or.inl ⟨spelled.symm, found⟩
    | cons chunk path => exact Or.inr ⟨chunk, path, spelled, found⟩

/-- A word is one of the trie exactly if its cut leads to a terminal. -/
theorem Canonical.mem_words_iff
    {trie : Trie}
    (canonical : trie.Canonical)
    {word : Bytes}
    {member : Enumerator} :
    (word, member) ∈ trie.words ↔
      trie.terminal? (Chunk.cut trie.maxWidth word) = some member := by
  rw [mem_words_iff_of_sorted canonical.sorted]
  constructor
  · rintro ⟨path, rfl, found⟩
    rw [canonical.cut path member found]
    exact found
  · intro found
    exact ⟨_, Chunk.flatten_cut trie.maxWidth word, found⟩

/-- Insertion lets one word stand for the enumerator and keeps what all other
words stand for. -/
theorem Canonical.mem_words_insert
    {trie : Trie}
    (canonical : trie.Canonical)
    {word other : Bytes}
    {enumerator member : Enumerator} :
    (other, member) ∈ (trie.insert word enumerator).words ↔
      (other = word ∧ member = enumerator) ∨
      (other ≠ word ∧ (other, member) ∈ trie.words) := by
  rw [(canonical.insert word enumerator).mem_words_iff, maxWidth_insert,
    canonical.terminal?_insert, canonical.mem_words_iff]
  by_cases equal : other = word
  · simp [equal, eq_comm]
  · have apart : Chunk.cut trie.maxWidth other ≠
        Chunk.cut trie.maxWidth word :=
      fun same => equal (Chunk.cut_injective trie.maxWidth same)
    simp [equal, apart]

/-- No word of the trie stands for two enumerators. -/
theorem Canonical.words_functional
    {trie : Trie}
    (canonical : trie.Canonical)
    {word : Bytes}
    {first second : Enumerator}
    (first_mem : (word, first) ∈ trie.words)
    (second_mem : (word, second) ∈ trie.words) :
    first = second := by
  rw [canonical.mem_words_iff] at first_mem second_mem
  exact Option.some.inj (first_mem.symm.trans second_mem)

end Trie
end WordSwitch
