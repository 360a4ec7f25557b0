import Mathlib.Data.List.Nodup
import WordSwitch.Proofs.Lexicon.History

/-!
# Words and labels are assigned once

The words of a lexicon, and likewise its labels, are the keys of a map: none
is listed twice, and what is listed for one is what the map finds.
-/

namespace WordSwitch

namespace OrderedMap

variable {κ ν : Type} [DecidableEq κ]

/-- The keys in order of first assignment. -/
def keys (map : OrderedMap κ ν) : List κ :=
  map.toList.map (·.1)

theorem map_fst_assignIn (key : κ) (value : ν) (pairs : List (κ × ν)) :
    (assignIn key value pairs).map (·.1) =
      if key ∈ pairs.map (·.1) then pairs.map (·.1)
      else pairs.map (·.1) ++ [key] := by
  induction pairs with
  | nil => simp [assignIn]
  | cons pair rest hypothesis =>
    by_cases equal : pair.1 = key
    · simp [assignIn, equal]
    · have different : key ≠ pair.1 := Ne.symm equal
      simp only [assignIn, equal, if_false, List.map_cons, hypothesis,
        List.mem_cons, different, false_or]
      split <;> rfl

theorem keys_assign (map : OrderedMap κ ν) (key : κ) (value : ν) :
    (map.assign key value).keys =
      if key ∈ map.keys then map.keys else map.keys ++ [key] :=
  map_fst_assignIn key value map.toList

/-- Assigning a key lists no key twice. -/
theorem nodup_keys_assign
    {map : OrderedMap κ ν}
    (nodup : map.keys.Nodup)
    (key : κ)
    (value : ν) :
    (map.assign key value).keys.Nodup := by
  rw [keys_assign]
  split
  · exact nodup
  · next absent =>
    rw [List.nodup_append]
    refine ⟨nodup, List.nodup_singleton key, ?_⟩
    intro listed present other single
    rw [List.mem_singleton.mp single]
    intro equal
    exact absent (equal ▸ present)

theorem mem_of_findIn?
    {key : κ}
    {value : ν}
    {pairs : List (κ × ν)}
    (found : findIn? key pairs = some value) :
    (key, value) ∈ pairs := by
  induction pairs with
  | nil => simp [findIn?] at found
  | cons pair rest hypothesis =>
    by_cases equal : pair.1 = key
    · simp only [findIn?, equal, if_true, Option.some.injEq] at found
      rw [← equal, ← found]
      exact List.mem_cons_self
    · simp only [findIn?, equal, if_false] at found
      exact List.mem_cons_of_mem pair (hypothesis found)

theorem findIn?_of_mem
    {key : κ}
    {value : ν}
    {pairs : List (κ × ν)}
    (nodup : (pairs.map (·.1)).Nodup)
    (member : (key, value) ∈ pairs) :
    findIn? key pairs = some value := by
  induction pairs with
  | nil => simp at member
  | cons pair rest hypothesis =>
    rw [List.map_cons, List.nodup_cons] at nodup
    rcases List.mem_cons.mp member with equal | later
    · simp [← equal, findIn?]
    · have different : pair.1 ≠ key := by
        intro equal
        apply nodup.1
        rw [equal]
        exact List.mem_map_of_mem (f := (·.1)) later
      simp only [findIn?, different, if_false]
      exact hypothesis nodup.2 later

/-- If no key is listed twice, the listed pairs are what the map finds. -/
theorem mem_toList_iff
    {map : OrderedMap κ ν}
    (nodup : map.keys.Nodup)
    {key : κ}
    {value : ν} :
    (key, value) ∈ map.toList ↔ map.get? key = some value :=
  ⟨findIn?_of_mem nodup, mem_of_findIn?⟩

theorem get?_eq_none_iff {map : OrderedMap κ ν} {key : κ} :
    map.get? key = none ↔ key ∉ map.keys := by
  obtain ⟨pairs⟩ := map
  unfold get? keys
  induction pairs with
  | nil => simp [findIn?]
  | cons pair rest hypothesis =>
    by_cases equal : pair.1 = key
    · simp [findIn?, equal]
    · have different : key ≠ pair.1 := Ne.symm equal
      simp only [findIn?, equal, if_false, List.map_cons, List.mem_cons,
        different, false_or]
      exact hypothesis

end OrderedMap

namespace Lexicon

/-- Neither a word nor a label is listed twice. -/
structure AssignedOnce (lexicon : Lexicon) : Prop where
  words : lexicon.words.keys.Nodup
  labels : lexicon.labels.keys.Nodup

theorem AssignedOnce.defineLabel
    {lexicon : Lexicon}
    (once : lexicon.AssignedOnce)
    (label : String)
    (value : Int) :
    (lexicon.defineLabel label value).AssignedOnce :=
  ⟨once.words, OrderedMap.nodup_keys_assign once.labels label value⟩

/-- What a word declaration that succeeds leaves behind: a value was chosen,
its label was defined, and the word was assigned the label. -/
theorem eq_of_declareWord?
    {lexicon next : Lexicon}
    {word : Bytes}
    {label : String}
    {value : Option Int}
    {chosen : Int}
    (declared : lexicon.declareWord? word label value = some (chosen, next)) :
    ∃ supply, lexicon.chooseValue? value = some (chosen, supply) ∧
      next = { lexicon.defineLabel label chosen with
        words := lexicon.words.assign word label
        supply := supply } := by
  obtain ⟨⟨picked, supply⟩, choice, equal⟩ := Option.map_eq_some_iff.mp declared
  obtain ⟨same, rfl⟩ := Prod.mk.inj equal
  subst same
  exact ⟨supply, choice, rfl⟩

/-- No history lists a word or a label twice. -/
theorem assignedOnce_after (history : List Declaration) :
    (after history).AssignedOnce := by
  refine induction_after ⟨List.nodup_nil, List.nodup_nil⟩ ?_ ?_ history
  · intro lexicon word label value chosen next once declared
    obtain ⟨supply, _, rfl⟩ := eq_of_declareWord? declared
    have defined := once.defineLabel label chosen
    exact ⟨OrderedMap.nodup_keys_assign once.words word label, defined.labels⟩
  · intro lexicon label value once
    have defined := once.defineLabel (label.getD lexicon.fallback.label) value
    exact ⟨defined.words, defined.labels⟩

@[simp] theorem map_word_entries (lexicon : Lexicon) :
    lexicon.entries.map Entry.word = lexicon.words.keys := by
  unfold entries OrderedMap.keys
  rw [List.map_map]
  rfl

/-- Entries with the same word are the same entry. -/
theorem AssignedOnce.entry_eq
    {lexicon : Lexicon}
    (once : lexicon.AssignedOnce)
    {first second : Entry}
    (first_mem : first ∈ lexicon.entries)
    (second_mem : second ∈ lexicon.entries)
    (same : first.word = second.word) :
    first = second := by
  have nodup := once.words
  rw [← map_word_entries] at nodup
  exact List.inj_on_of_nodup_map nodup first_mem second_mem same

end Lexicon
end WordSwitch
