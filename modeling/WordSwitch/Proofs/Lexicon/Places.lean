import WordSwitch.Proofs.Lexicon.Assignment

/-!
# Places of keys

A map from keys to places is an index of a row if it finds each key where it
stands and nothing else.  Then no key stands twice, and the place that is found
for a key is the one at which a map with these keys assigns it.
-/

namespace WordSwitch

namespace OrderedMap

variable {κ ν : Type} [DecidableEq κ]

/-- A map finds each key of a row at the place where it stands, and no other
key. -/
def Indexes (places : OrderedMap κ Nat) (keys : List κ) : Prop :=
  ∀ key place, places.get? key = some place ↔ keys[place]? = some key

theorem indexes_empty : (empty : OrderedMap κ Nat).Indexes [] := by
  intro key place
  simp

section

variable
  {places : OrderedMap κ Nat}
  {keys : List κ}
  (indexes : places.Indexes keys)

include indexes

/-- What is found at one place stands at no other. -/
theorem Indexes.nodup : keys.Nodup := by
  rw [List.nodup_iff_getElem?_ne_getElem?]
  intro first second before inside same
  have key_eq : keys[second]? = some keys[second] :=
    List.getElem?_eq_getElem inside
  have atSecond := (indexes _ second).mpr key_eq
  have atFirst := (indexes _ first).mpr (same.trans key_eq)
  have equal := Option.some.inj (atFirst.symm.trans atSecond)
  omega

theorem Indexes.get?_eq_none_iff {key : κ} :
    places.get? key = none ↔ key ∉ keys := by
  rw [List.mem_iff_getElem?, not_exists, Option.eq_none_iff_forall_ne_some]
  exact forall_congr' fun place => not_congr (indexes key place)

/-- A new key stands behind all others. -/
theorem Indexes.append
    {key : κ}
    (new : places.get? key = none) :
    (places.assign key keys.length).Indexes (keys ++ [key]) := by
  have absent := indexes.get?_eq_none_iff.mp new
  intro other place
  by_cases same : other = key
  · subst same
    rw [get?_assign_self, Option.some.injEq]
    constructor
    · rintro rfl
      exact List.getElem?_concat_length
    · intro stands
      rcases List.getElem?_append.symm.trans stands with found
      split at found
      · exact absurd (List.mem_of_getElem? found) absent
      · have := (List.getElem?_eq_some_iff.mp found).1
        rw [List.length_singleton] at this
        omega
  · rw [get?_assign_of_ne _ same, indexes, List.getElem?_append]
    split
    · rfl
    · next outside =>
      rw [List.getElem?_eq_none (Nat.le_of_not_lt outside),
        List.getElem?_singleton]
      split
      · simp [Ne.symm same]
      · rfl

end

theorem assignIn_eq_set
    {pairs : List (κ × ν)}
    (nodup : (pairs.map (·.1)).Nodup)
    {key : κ}
    {place : Nat}
    (stands : (pairs.map (·.1))[place]? = some key)
    (value : ν) :
    assignIn key value pairs = pairs.set place (key, value) := by
  induction pairs generalizing place with
  | nil => cases stands
  | cons pair rest hypothesis =>
    rw [List.map_cons, List.nodup_cons] at nodup
    cases place with
    | zero =>
      have first : pair.1 = key := Option.some.inj stands
      simp [assignIn, first]
    | succ place =>
      have later : (rest.map (·.1))[place]? = some key := stands
      have other : pair.1 ≠ key :=
        fun equal => nodup.1 (equal ▸ List.mem_of_getElem? later)
      rw [assignIn, if_neg other, hypothesis nodup.2 later, List.set_cons_succ]

theorem assignIn_eq_append
    {pairs : List (κ × ν)}
    {key : κ}
    (absent : key ∉ pairs.map (·.1))
    (value : ν) :
    assignIn key value pairs = pairs ++ [(key, value)] := by
  induction pairs with
  | nil => rfl
  | cons pair rest hypothesis =>
    rw [List.map_cons, List.mem_cons, not_or] at absent
    rw [assignIn, if_neg (Ne.symm absent.1), hypothesis absent.2,
      List.cons_append]

section

variable
  {places : OrderedMap κ Nat}
  {map : OrderedMap κ ν}
  (indexes : places.Indexes map.keys)
  {key : κ}

include indexes

/-- A key that is found is assigned at its place. -/
theorem Indexes.assign_of_place
    {place : Nat}
    (found : places.get? key = some place)
    (value : ν) :
    place < map.toList.length ∧
      (map.assign key value).toList = map.toList.set place (key, value) ∧
      places.Indexes (map.assign key value).keys := by
  have stands := (indexes key place).mp found
  obtain ⟨inside, _⟩ := List.getElem?_eq_some_iff.mp stands
  refine ⟨by simpa [keys] using inside,
    assignIn_eq_set indexes.nodup stands value, ?_⟩
  rw [keys_assign, if_pos (List.mem_of_getElem? stands)]
  exact indexes

/-- A key that is not found is assigned behind all others. -/
theorem Indexes.assign_of_new
    (new : places.get? key = none)
    (value : ν) :
    (map.assign key value).toList = map.toList ++ [(key, value)] ∧
      (places.assign key map.toList.length).Indexes
        (map.assign key value).keys := by
  have absent := indexes.get?_eq_none_iff.mp new
  refine ⟨assignIn_eq_append absent value, ?_⟩
  have appended := indexes.append new
  rw [keys, List.length_map] at appended
  rw [keys_assign, if_neg absent]
  exact appended

end

end OrderedMap

end WordSwitch
