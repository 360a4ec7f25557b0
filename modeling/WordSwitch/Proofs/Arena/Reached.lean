import WordSwitch.Proofs.Arena.Insertion
import WordSwitch.Proofs.Arena.Length
import WordSwitch.Proofs.Arena.Reading
import WordSwitch.Proofs.Arena.Recut
import WordSwitch.Proofs.Arena.WellLinked

/-!
# Arenas that can be reached

Whatever is done to the arena without words ends with a result: no step looks
at a place without a node, and none goes on forever.  The result is the arena
of the trie to which the same is done, it is well linked, and looking at it
gives what looking at the trie gives.
-/

namespace WordSwitch
namespace Arena

/-- An arena after one step. -/
def after (limit : Nat) (arena : Arena) : Trie.Step → Option Arena
  | .insert word enumerator => do
    let (_, changed) ← arena.insert word enumerator limit
    some changed
  | .restrict length => do
    let restricted? ← arena.ofLength length limit
    some (restricted?.getD arena)
  | .recut ignoreCase maxWidth => arena.recut ignoreCase maxWidth limit

/-- The arena that some steps reach from the one without words. -/
def reached
    (maxWidth : Nat)
    (steps : List Trie.Step)
    (limit : Nat) :
    Option Arena :=
  steps.foldlM (after limit) (empty maxWidth)

section

variable
  {arena : Arena}
  {trie : Trie}

/-- A step does to the arena of a trie what it does to the trie. -/
theorem Represents.after
    (represents : arena.Represents trie)
    (formed : trie.WellFormed)
    (step : Trie.Step) :
    ∃ changed, EndsWith (Arena.after · arena step) changed ∧
      changed.Represents (trie.after step) := by
  cases step with
  | insert word enumerator =>
    obtain ⟨changed, inserted, represented⟩ :=
      represents.insert formed.sorted word enumerator
    exact ⟨changed, inserted.map (·.2), represented⟩
  | restrict length =>
    have restricts := represents.ofLength formed.positive formed.sorted length
    rw [Trie.after]
    cases restriction : trie.ofLength? length with
    | none =>
      rw [restriction] at restricts
      exact ⟨arena, restricts.map (·.getD arena), represents⟩
    | some restricted =>
      rw [restriction] at restricts
      obtain ⟨copy, copied, represented⟩ := restricts
      exact ⟨copy, copied.map (·.getD arena), represented⟩
  | recut ignoreCase maxWidth =>
    exact represents.recut formed.nonempty ignoreCase maxWidth

/-- Steps do to the arena of a trie what they do to the trie. -/
theorem Represents.foldlM_after
    (represents : arena.Represents trie)
    (formed : trie.WellFormed)
    (steps : List Trie.Step) :
    ∃ changed,
      EndsWith (fun limit => steps.foldlM (Arena.after limit) arena) changed ∧
      changed.Represents (steps.foldl Trie.after trie) := by
  induction steps generalizing arena trie with
  | nil => exact ⟨arena, endsWith_some arena, represents⟩
  | cons step rest hypothesis =>
    obtain ⟨changed, changed_ends, represented⟩ := represents.after formed step
    obtain ⟨last, last_ends, lastRepresents⟩ :=
      hypothesis represented (formed.after step)
    refine ⟨last, ?_, lastRepresents⟩
    simp only [List.foldlM_cons]
    exact changed_ends.bind last_ends

end

/-- Whatever is done to the arena without words, the result is the arena of the
trie to which the same is done. -/
theorem represents_reached (maxWidth : Nat) (steps : List Trie.Step) :
    EndsWith (reached maxWidth steps) (ofTrie (Trie.reached maxWidth steps)) ∧
      (ofTrie (Trie.reached maxWidth steps)).Represents
        (Trie.reached maxWidth steps) := by
  obtain ⟨last, last_ends, represents⟩ :=
    (represents_empty maxWidth).foldlM_after
      (Trie.wellFormed_empty maxWidth) steps
  have arena_eq : last = ofTrie (Trie.reached maxWidth steps) :=
    represents.eq_ofTrie
  exact ⟨arena_eq ▸ last_ends, arena_eq ▸ represents⟩

/-- Every arena that can be reached is that of a trie, and well linked.
Whatever is done to it, or looked up in it, ends with a result, the same as for
the trie. -/
theorem reached_wellLinked (maxWidth : Nat) (steps : List Trie.Step) :
    let trie := Trie.reached maxWidth steps
    let arena := ofTrie trie
    EndsWith (reached maxWidth steps) arena ∧
    arena.WellLinked ∧
    (∀ word, EndsWith (arena.get word) (trie.get? word)) ∧
    EndsWith arena.words trie.words ∧
    EndsWith arena.depth trie.depth ∧
    EndsWith arena.levelWidths trie.levelWidths ∧
    (∀ word enumerator, EndsWith (arena.insert word enumerator)
      (trie.replaced? word, ofTrie (trie.insert word enumerator))) ∧
    (∀ length, EndsWith (arena.ofLength length)
      ((trie.ofLength? length).map ofTrie)) ∧
    ∀ ignoreCase width, EndsWith (arena.recut ignoreCase width)
      (ofTrie (trie.recut ignoreCase width)) := by
  intro trie arena
  have formed : trie.WellFormed := Trie.wellFormed_reached maxWidth steps
  obtain ⟨last, last_ends, lastRepresents⟩ :=
    (represents_empty maxWidth).foldlM_after
      (Trie.wellFormed_empty maxWidth) steps
  have arena_eq : last = arena := lastRepresents.eq_ofTrie
  have represents : arena.Represents trie := arena_eq ▸ lastRepresents
  refine ⟨arena_eq ▸ last_ends, represents.wellLinked formed, represents.get,
    represents.words, represents.depth, represents.levelWidths, ?_, ?_, ?_⟩
  · intro word enumerator
    obtain ⟨changed, inserted, represented⟩ :=
      represents.insert formed.sorted word enumerator
    rw [← represented.eq_ofTrie]
    exact inserted
  · intro length
    have restricts := represents.ofLength formed.positive formed.sorted length
    cases restriction : trie.ofLength? length with
    | none =>
      rw [restriction] at restricts
      exact restricts
    | some restricted =>
      rw [restriction] at restricts
      obtain ⟨copy, copied, represented⟩ := restricts
      rw [Option.map_some, ← represented.eq_ofTrie]
      exact copied
  · intro ignoreCase width
    obtain ⟨cut, cut_ends, represented⟩ :=
      represents.recut formed.nonempty ignoreCase width
    rw [← represented.eq_ofTrie]
    exact cut_ends

end Arena
end WordSwitch
