import Mathlib.Data.List.Induction
import WordSwitch.Lexicon.Collision
import WordSwitch.Proofs.Lexicon.Assignment

/-!
# Which words collide

An entry collides if an earlier one has the same lowercase form, and then with
the first one that has it.  So no collisions are found exactly if no two entries
have the same lowercase form.
-/

namespace WordSwitch

namespace Entry

/-- Whether two entries are equal without regard to case. -/
def caseEqual (first second : Entry) : Bool :=
  Bytes.lower first.word == Bytes.lower second.word

theorem caseEqual_iff {first second : Entry} :
    first.caseEqual second = true ↔
      Bytes.lower first.word = Bytes.lower second.word :=
  beq_iff_eq

end Entry

namespace Lexicon

/-- What is kept of the entries before: the first of each lowercase form. -/
def Remembers (seen : List (Bytes × Entry)) (before : List Entry) : Prop :=
  ∀ key, findIn? key seen = before.find? (Bytes.lower ·.word == key)

theorem remembers_nil : Remembers [] [] :=
  fun _ => rfl

section

variable
  {seen : List (Bytes × Entry)}
  {before : List Entry}

theorem Remembers.findIn?_eq
    (remembers : Remembers seen before)
    (entry : Entry) :
    findIn? (Bytes.lower entry.word) seen = before.find? (·.caseEqual entry) :=
  remembers _

/-- A lowercase form that was seen is not kept again. -/
theorem Remembers.seenAgain
    (remembers : Remembers seen before)
    {entry first : Entry}
    (found : findIn? (Bytes.lower entry.word) seen = some first) :
    Remembers seen (before ++ [entry]) := by
  intro key
  rw [List.find?_append, ← remembers key]
  by_cases equal : Bytes.lower entry.word = key
  · rw [← equal, found, Option.some_or]
  · simp [equal]

/-- A lowercase form that was not seen is kept with its entry. -/
theorem Remembers.seenFirst
    (remembers : Remembers seen before)
    {entry : Entry}
    (unseen : findIn? (Bytes.lower entry.word) seen = none) :
    Remembers ((Bytes.lower entry.word, entry) :: seen) (before ++ [entry]) := by
  intro key
  rw [List.find?_append, ← remembers key, findIn?]
  by_cases equal : Bytes.lower entry.word = key
  · rw [if_pos equal, ← equal, unseen]
    simp
  · simp [equal]

/-- The last entry collides with the first one that is equal to it without
regard to case, if there is one before it. -/
theorem collisionsAfter_append_singleton
    (remembers : Remembers seen before)
    (entries : List Entry)
    (last : Entry) :
    collisionsAfter seen (entries ++ [last]) =
      collisionsAfter seen entries ++
        (((before ++ entries).find? (·.caseEqual last)).map
          fun first => (first, last)).toList := by
  induction entries generalizing seen before with
  | nil =>
    rw [List.nil_append, List.append_nil, ← remembers.findIn?_eq]
    cases found : findIn? (Bytes.lower last.word) seen <;>
      simp [collisionsAfter, found]
  | cons entry rest hypothesis =>
    rw [List.cons_append, collisionsAfter, collisionsAfter,
      List.append_cons before entry rest]
    cases found : findIn? (Bytes.lower entry.word) seen with
    | none => exact hypothesis (remembers.seenFirst found)
    | some first =>
      exact congrArg ((first, entry) :: ·)
        (hypothesis (remembers.seenAgain found))

end

section

variable {entries : List Entry}

theorem collisionsAfter_nil_append_singleton (last : Entry) :
    collisionsAfter [] (entries ++ [last]) =
      collisionsAfter [] entries ++
        ((entries.find? (·.caseEqual last)).map
          fun first => (first, last)).toList :=
  collisionsAfter_append_singleton remembers_nil entries last

/-- Nothing collides exactly if the lowercase forms are distinct. -/
theorem collisionsAfter_nil_eq_nil_iff :
    collisionsAfter [] entries = [] ↔
      (entries.map (Bytes.lower ·.word)).Nodup := by
  induction entries using List.reverseRecOn with
  | nil => simp [collisionsAfter]
  | append_singleton entries last hypothesis =>
    have alone : (((entries.find? (·.caseEqual last)).map
          fun first => (first, last)).toList = []) ↔
        Bytes.lower last.word ∉ entries.map (Bytes.lower ·.word) := by
      simp [Option.toList_eq_nil_iff, Entry.caseEqual_iff]
    rw [collisionsAfter_nil_append_singleton, List.append_eq_nil_iff,
      hypothesis, alone, List.map_append, List.map_singleton,
      List.nodup_append_comm, List.singleton_append, List.nodup_cons, and_comm]

/-- The entries that collide are those behind one that is equal to them without
regard to case, each with the first such entry. -/
theorem mem_collisionsAfter_nil_iff {first second : Entry} :
    (first, second) ∈ collisionsAfter [] entries ↔
      ∃ before, before ++ [second] <+: entries ∧
        before.find? (·.caseEqual second) = some first := by
  induction entries using List.reverseRecOn with
  | nil => simp [collisionsAfter]
  | append_singleton entries last hypothesis =>
    rw [collisionsAfter_nil_append_singleton, List.mem_append, hypothesis]
    simp only [List.prefix_concat_iff, Option.mem_toList, Option.map_eq_some_iff,
      Prod.mk.injEq]
    constructor
    · rintro (⟨before, begins, found⟩ | ⟨_, found, rfl, rfl⟩)
      · exact ⟨before, Or.inr begins, found⟩
      · exact ⟨entries, Or.inl rfl, found⟩
    · rintro ⟨before, whole | begins, found⟩
      · obtain ⟨rfl, same⟩ := List.append_inj' whole rfl
        obtain rfl := List.singleton_inj.mp same
        exact Or.inr ⟨first, found, rfl, rfl⟩
      · exact Or.inl ⟨before, begins, found⟩

/-- The first collision is the first repetition of a lowercase form. -/
theorem head?_collisionsAfter_nil_eq_some_iff {first second : Entry} :
    (collisionsAfter [] entries).head? = some (first, second) ↔
      ∃ before, before ++ [second] <+: entries ∧
        (before.map (Bytes.lower ·.word)).Nodup ∧
        before.find? (·.caseEqual second) = some first := by
  induction entries using List.reverseRecOn with
  | nil => simp [collisionsAfter]
  | append_singleton entries last hypothesis =>
    rw [collisionsAfter_nil_append_singleton, List.head?_append,
      Option.or_eq_some_iff, hypothesis, List.head?_eq_none_iff,
      collisionsAfter_nil_eq_nil_iff]
    simp only [List.prefix_concat_iff, Option.head?_toList,
      Option.map_eq_some_iff, Prod.mk.injEq]
    constructor
    · rintro (⟨before, begins, found⟩ | ⟨distinct, _, found, rfl, rfl⟩)
      · exact ⟨before, Or.inr begins, found⟩
      · exact ⟨entries, Or.inl rfl, distinct, found⟩
    · rintro ⟨before, whole | begins, distinct, found⟩
      · obtain ⟨rfl, same⟩ := List.append_inj' whole rfl
        obtain rfl := List.singleton_inj.mp same
        exact Or.inr ⟨distinct, first, found, rfl, rfl⟩
      · exact Or.inl ⟨before, begins, distinct, found⟩

/-- The entries that collide stand in their order. -/
theorem map_snd_collisionsAfter_nil_sublist :
    ((collisionsAfter [] entries).map (·.2)).Sublist entries := by
  induction entries using List.reverseRecOn with
  | nil => exact List.Sublist.refl []
  | append_singleton entries last hypothesis =>
    rw [collisionsAfter_nil_append_singleton, List.map_append]
    refine hypothesis.append ?_
    cases entries.find? (·.caseEqual last) with
    | none => exact List.nil_sublist [last]
    | some first => exact List.Sublist.refl [last]

end

/-- No entries collide exactly if their lowercase forms are distinct. -/
theorem collisions_eq_nil_iff {lexicon : Lexicon} :
    lexicon.collisions = [] ↔
      (lexicon.entries.map fun entry => Bytes.lower entry.word).Nodup :=
  collisionsAfter_nil_eq_nil_iff

end Lexicon
end WordSwitch
