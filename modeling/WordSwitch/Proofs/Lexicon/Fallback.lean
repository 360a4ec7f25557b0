import WordSwitch.Proofs.Lexicon.Assignment
import WordSwitch.Proofs.Recognizer.Building
import WordSwitch.Recognizer.Lookup

/-!
# The fallback in the enumeration

An input that is no word stands for the fallback, and the enumeration is to
give the fallback's label the fallback's value.  It does so after every
history but one kind: as long as no fallback is declared, the first word that
carries the label of the undeclared fallback gives that label a value and
leaves the fallback at its own.  The next declaration of that label, or of any
fallback, brings the two together for good.
-/

namespace WordSwitch

namespace Declaration

/-- Whether a declaration declares the fallback. -/
def isFallback : Declaration → Bool
  | entry .. => false
  | fallback .. => true

/-- Whether a declaration is that of a word with some label. -/
def givesWord (label : String) : Declaration → Bool
  | entry _ given _ => given == label
  | fallback .. => false

end Declaration

namespace Lexicon

/-- The enumeration lists the fallback once, and nothing else under its
label. -/
def ListsFallback (lexicon : Lexicon) : Prop :=
  lexicon.enumeration.filter (·.label == lexicon.fallback.label) =
    [lexicon.fallback]

instance (lexicon : Lexicon) : Decidable lexicon.ListsFallback :=
  inferInstanceAs (Decidable (_ = _))

/-- The value that the enumeration gives to a label. -/
def enumeratedValue? (lexicon : Lexicon) (label : String) : Option Int :=
  (lexicon.enumeration.find? (·.label == label)).map Enumerator.value

/-- The histories that leave the fallback behind: no fallback is declared, and
just one word carries the label of the undeclared fallback, with another value
than that. -/
def FallbackLeftBehind (declarations : List Declaration) : Prop :=
  declarations.any Declaration.isFallback = false ∧
    ∃ word value,
      declarations.filter
          (Declaration.givesWord undeclaredFallback.label) =
        [.entry word undeclaredFallback.label value] ∧
      value ≠ some undeclaredFallback.value

/-! ## One declaration -/

theorem valueOf?_defineLabel
    (lexicon : Lexicon)
    (label other : String)
    (value : Int) :
    (lexicon.defineLabel label value).valueOf? other =
      if other = label then some value else lexicon.valueOf? other := by
  by_cases equal : other = label
  · rw [if_pos equal, equal]
    exact OrderedMap.get?_assign_self lexicon.labels label value
  · rw [if_neg equal]
    exact OrderedMap.get?_assign_of_ne lexicon.labels equal value

/-- A fallback whose label is declared with its value stays so. -/
theorem defineLabel_keeps_declared
    {lexicon : Lexicon}
    (declared : lexicon.valueOf? lexicon.fallback.label =
      some lexicon.fallback.value)
    (label : String)
    (value : Int) :
    (lexicon.defineLabel label value).valueOf?
        (lexicon.defineLabel label value).fallback.label =
      some (lexicon.defineLabel label value).fallback.value := by
  by_cases equal : lexicon.fallback.label = label
  · have known : (lexicon.valueOf? label).isSome = true := by
      rw [← equal, declared]
      rfl
    have moved : (lexicon.defineLabel label value).fallback =
        ⟨label, value⟩ := by
      simp [defineLabel, known, equal]
    rw [moved, valueOf?_defineLabel, if_pos rfl]
  · have kept : (lexicon.defineLabel label value).fallback =
        lexicon.fallback := by
      simp [defineLabel, equal]
    rw [kept, valueOf?_defineLabel, if_neg equal, declared]

/-- No value below zero is left in the supply. -/
def SuppliesNaturals (lexicon : Lexicon) : Prop :=
  ∀ value, lexicon.supply.next = some value → 0 ≤ value

theorem nonneg_of_observe
    {supply : ValueSupply}
    {observed value : Int}
    (naturals : ∀ next, supply.next = some next → 0 ≤ next)
    (left : (supply.observe observed).next = some value) :
    0 ≤ value := by
  unfold ValueSupply.observe at left
  split at left
  · next next after next_eq _ =>
    have nonneg := naturals next next_eq
    have equal : max next after = value := Option.some.inj left
    omega
  · simp at left

theorem nonneg_of_take?
    {supply rest : ValueSupply}
    {taken value : Int}
    (naturals : ∀ next, supply.next = some next → 0 ≤ next)
    (took : supply.take? = some (taken, rest))
    (left : rest.next = some value) :
    0 ≤ value := by
  obtain ⟨next, next_eq, pair⟩ := Option.map_eq_some_iff.mp took
  obtain ⟨rfl, rfl⟩ := Prod.mk.inj pair
  have nonneg := naturals next next_eq
  simp only [nextValue?] at left
  split at left
  · have equal : next + 1 = value := Option.some.inj left
    omega
  · simp at left

theorem suppliesNaturals_after_word
    {lexicon next : Lexicon}
    {word : Bytes}
    {label : String}
    {value : Option Int}
    {chosen : Int}
    (naturals : lexicon.SuppliesNaturals)
    (declared : lexicon.declareWord? word label value = some (chosen, next)) :
    next.SuppliesNaturals := by
  obtain ⟨supply, choice, rfl⟩ := eq_of_declareWord? declared
  intro left left_eq
  cases value with
  | none => exact nonneg_of_take? naturals choice left_eq
  | some value =>
    have equal := (Prod.mk.inj (Option.some.inj choice)).2
    subst equal
    exact nonneg_of_observe naturals left_eq

/-- A value is below zero only if it was declared. -/
theorem chooseValue?_undeclaredFallback_iff
    {lexicon : Lexicon}
    {value : Option Int}
    {chosen : Int}
    {supply : ValueSupply}
    (naturals : lexicon.SuppliesNaturals)
    (choice : lexicon.chooseValue? value = some (chosen, supply)) :
    chosen = undeclaredFallback.value ↔
      value = some undeclaredFallback.value := by
  cases value with
  | none =>
    obtain ⟨next, next_eq, pair⟩ := Option.map_eq_some_iff.mp choice
    obtain ⟨rfl, _⟩ := Prod.mk.inj pair
    have nonneg := naturals next next_eq
    have negative : undeclaredFallback.value = -1 := rfl
    simp only [reduceCtorEq, iff_false]
    omega
  | some value =>
    obtain ⟨rfl, _⟩ := Prod.mk.inj (Option.some.inj choice)
    exact Option.some_inj.symm

/-! ## A history of declarations -/

/-- How the fallback stands after some declarations. -/
inductive FallbackPhase : List Declaration → Lexicon → Prop
  /-- Neither it nor its label is declared. -/
  | untouched {declarations lexicon}
      (undeclared : declarations.any Declaration.isFallback = false)
      (unlabelled : declarations.filter
        (Declaration.givesWord undeclaredFallback.label) = [])
      (fallback_eq : lexicon.fallback = undeclaredFallback)
      (value_eq : lexicon.valueOf? undeclaredFallback.label = none) :
      FallbackPhase declarations lexicon
  /-- It is undeclared, and one word carries its label. -/
  | labelled {declarations lexicon}
      (word : Bytes)
      (value : Option Int)
      (chosen : Int)
      (undeclared : declarations.any Declaration.isFallback = false)
      (labelled : declarations.filter
          (Declaration.givesWord undeclaredFallback.label) =
        [.entry word undeclaredFallback.label value])
      (fallback_eq : lexicon.fallback = undeclaredFallback)
      (value_eq : lexicon.valueOf? undeclaredFallback.label = some chosen)
      (chosen_iff : chosen = undeclaredFallback.value ↔
        value = some undeclaredFallback.value) :
      FallbackPhase declarations lexicon
  /-- Its label is declared with its value. -/
  | declared {declarations lexicon}
      (settled : declarations.any Declaration.isFallback = true ∨
        1 < (declarations.filter
          (Declaration.givesWord undeclaredFallback.label)).length)
      (value_eq : lexicon.valueOf? lexicon.fallback.label =
        some lexicon.fallback.value) :
      FallbackPhase declarations lexicon

/-- A word with another label leaves an undeclared fallback as it is. -/
theorem declareWord?_of_ne
    {lexicon next : Lexicon}
    {word : Bytes}
    {label : String}
    {value : Option Int}
    {chosen : Int}
    (declared : lexicon.declareWord? word label value = some (chosen, next))
    (different : label ≠ lexicon.fallback.label) :
    next.fallback = lexicon.fallback ∧
      next.valueOf? lexicon.fallback.label =
        lexicon.valueOf? lexicon.fallback.label := by
  obtain ⟨supply, _, rfl⟩ := eq_of_declareWord? declared
  constructor
  · simp [defineLabel, Ne.symm different]
  · exact OrderedMap.get?_assign_of_ne lexicon.labels (Ne.symm different)
      chosen

/-- A word with the label of a fallback whose label is declared takes the
fallback along. -/
theorem declareWord?_of_known
    {lexicon next : Lexicon}
    {word : Bytes}
    {value : Option Int}
    {chosen : Int}
    (declared : lexicon.declareWord? word lexicon.fallback.label value =
      some (chosen, next))
    (known : (lexicon.valueOf? lexicon.fallback.label).isSome = true) :
    next.valueOf? next.fallback.label = some next.fallback.value := by
  obtain ⟨supply, _, rfl⟩ := eq_of_declareWord? declared
  have moved : (lexicon.defineLabel lexicon.fallback.label chosen).fallback =
      ⟨lexicon.fallback.label, chosen⟩ := by
    simp [defineLabel, known]
  change (lexicon.defineLabel lexicon.fallback.label chosen).valueOf?
      (lexicon.defineLabel lexicon.fallback.label chosen).fallback.label =
    some (lexicon.defineLabel lexicon.fallback.label chosen).fallback.value
  rw [moved, valueOf?_defineLabel, if_pos rfl]

theorem FallbackPhase.declareWord
    {earlier : List Declaration}
    {lexicon next : Lexicon}
    {word : Bytes}
    {label : String}
    {value : Option Int}
    {chosen : Int}
    (phase : FallbackPhase earlier lexicon)
    (naturals : lexicon.SuppliesNaturals)
    (declared : lexicon.declareWord? word label value = some (chosen, next)) :
    FallbackPhase (earlier ++ [.entry word label value]) next := by
  have stillUndeclared (undeclared : earlier.any Declaration.isFallback =
      false) :
      (earlier ++ [Declaration.entry word label value]).any
        Declaration.isFallback = false := by
    rw [List.any_append, undeclared]
    rfl
  cases phase with
  | untouched undeclared unlabelled fallback_eq value_eq =>
    by_cases equal : label = undeclaredFallback.label
    · subst equal
      obtain ⟨supply, choice, rfl⟩ := eq_of_declareWord? declared
      refine .labelled word value chosen (stillUndeclared undeclared)
        ?_ ?_ ?_ ?_
      · simp [List.filter_append, unlabelled, Declaration.givesWord]
      · simp [defineLabel, value_eq, fallback_eq]
      · exact OrderedMap.get?_assign_self lexicon.labels
          undeclaredFallback.label chosen
      · exact chooseValue?_undeclaredFallback_iff naturals choice
    · have different : label ≠ lexicon.fallback.label := fallback_eq ▸ equal
      have kept := declareWord?_of_ne declared different
      rw [fallback_eq, value_eq] at kept
      refine .untouched (stillUndeclared undeclared) ?_ kept.1 kept.2
      simp [List.filter_append, unlabelled, Declaration.givesWord, equal]
  | labelled earlierWord earlierValue earlierChosen undeclared labelled
      fallback_eq value_eq chosen_iff =>
    by_cases equal : label = undeclaredFallback.label
    · have labelOfFallback : label = lexicon.fallback.label := by
        rw [fallback_eq, equal]
      subst labelOfFallback
      refine .declared (Or.inr ?_) (declareWord?_of_known declared ?_)
      · simp [List.filter_append, labelled, Declaration.givesWord, equal]
      · rw [fallback_eq, value_eq]
        rfl
    · have different : label ≠ lexicon.fallback.label := fallback_eq ▸ equal
      have kept := declareWord?_of_ne declared different
      rw [fallback_eq, value_eq] at kept
      refine .labelled earlierWord earlierValue earlierChosen
        (stillUndeclared undeclared) ?_ kept.1 kept.2 chosen_iff
      simp [List.filter_append, labelled, Declaration.givesWord, equal]
  | declared settled value_eq =>
    refine .declared ?_ ?_
    · rcases settled with someFallback | manyWords
      · exact Or.inl (by simp [List.any_append, someFallback])
      · refine Or.inr ?_
        rw [List.filter_append, List.length_append]
        omega
    · obtain ⟨supply, _, rfl⟩ := eq_of_declareWord? declared
      exact defineLabel_keeps_declared value_eq label chosen

theorem FallbackPhase.declareFallback
    (earlier : List Declaration)
    (lexicon : Lexicon)
    (label : Option String)
    (value : Int) :
    FallbackPhase (earlier ++ [.fallback label value])
      (lexicon.declareFallback label value) := by
  refine .declared (Or.inl ?_) ?_
  · simp [List.any_append, Declaration.isFallback]
  · exact OrderedMap.get?_assign_self lexicon.labels
      (label.getD lexicon.fallback.label) value

/-- The phase of the fallback after declarations that were all followed. -/
theorem fallbackPhase
    {declarations : List Declaration}
    {lexicon : Lexicon}
    (reached : ofDeclarations? declarations = some lexicon) :
    FallbackPhase declarations lexicon ∧ lexicon.SuppliesNaturals := by
  refine induction_followed
    (motive := fun declarations lexicon =>
      FallbackPhase declarations lexicon ∧ lexicon.SuppliesNaturals)
    ?_ ?_ ?_ reached
  · refine ⟨.untouched rfl rfl rfl rfl, ?_⟩
    intro value fresh
    have equal : 0 = value := Option.some.inj fresh
    omega
  · intro earlier before word label value chosen next holds declared
    exact ⟨holds.1.declareWord holds.2 declared,
      suppliesNaturals_after_word holds.2 declared⟩
  · intro earlier before label value holds
    refine ⟨.declareFallback earlier before label value, ?_⟩
    intro left left_eq
    exact nonneg_of_observe holds.2 left_eq

/-! ## The enumeration -/

theorem filter_label_of_valueOf?
    {lexicon : Lexicon}
    (once : lexicon.AssignedOnce)
    {label : String}
    {value : Int}
    (known : lexicon.valueOf? label = some value) :
    (lexicon.labels.toList.map fun pair =>
        (⟨pair.1, pair.2⟩ : Enumerator)).filter (·.label == label) =
      [⟨label, value⟩] := by
  have nodup := once.labels
  unfold valueOf? OrderedMap.get? at known
  unfold OrderedMap.keys at nodup
  generalize lexicon.labels.toList = pairs at known nodup
  induction pairs with
  | nil => simp [findIn?] at known
  | cons pair rest hypothesis =>
    rw [List.map_cons, List.nodup_cons] at nodup
    by_cases equal : pair.1 = label
    · have noneLater : (rest.map fun pair =>
          (⟨pair.1, pair.2⟩ : Enumerator)).filter (·.label == label) = [] := by
        rw [List.filter_eq_nil_iff]
        intro member present same
        obtain ⟨other, listed, rfl⟩ := List.mem_map.mp present
        apply nodup.1
        rw [equal, ← eq_of_beq same]
        exact List.mem_map_of_mem listed
      simp only [findIn?, equal, if_true, Option.some.injEq] at known
      simp [equal, known, noneLater]
    · simp only [findIn?, equal, if_false] at known
      simpa [equal] using hypothesis known nodup.2

theorem filter_label_of_unknown
    {lexicon : Lexicon}
    {label : String}
    (unknown : lexicon.valueOf? label = none) :
    (lexicon.labels.toList.map fun pair =>
        (⟨pair.1, pair.2⟩ : Enumerator)).filter (·.label == label) = [] := by
  have absent := OrderedMap.get?_eq_none_iff.mp unknown
  rw [List.filter_eq_nil_iff]
  intro member present
  obtain ⟨pair, listed, rfl⟩ := List.mem_map.mp present
  intro same
  exact absent (eq_of_beq same ▸ List.mem_map_of_mem listed)

/-- The one member that the enumeration lists under the fallback's label has
the value of that label, if it is declared, and else that of the fallback. -/
theorem filter_enumeration_fallback
    {lexicon : Lexicon}
    (once : lexicon.AssignedOnce) :
    lexicon.enumeration.filter (·.label == lexicon.fallback.label) =
      [⟨lexicon.fallback.label,
        (lexicon.valueOf? lexicon.fallback.label).getD
          lexicon.fallback.value⟩] := by
  unfold enumeration
  cases known : lexicon.valueOf? lexicon.fallback.label with
  | none =>
    simp only [List.filter_append, filter_label_of_unknown known]
    simp
  | some value => exact filter_label_of_valueOf? once known

theorem listsFallback_iff
    {lexicon : Lexicon}
    (once : lexicon.AssignedOnce) :
    lexicon.ListsFallback ↔
      (lexicon.valueOf? lexicon.fallback.label).getD lexicon.fallback.value =
        lexicon.fallback.value := by
  unfold ListsFallback
  rw [filter_enumeration_fallback once, List.singleton_inj]
  constructor
  · intro equal
    exact congrArg Enumerator.value equal
  · intro equal
    rw [equal]

theorem enumeratedValue?_fallback
    {lexicon : Lexicon}
    (once : lexicon.AssignedOnce) :
    lexicon.enumeratedValue? lexicon.fallback.label =
      some ((lexicon.valueOf? lexicon.fallback.label).getD
        lexicon.fallback.value) := by
  unfold enumeratedValue?
  rw [← List.head?_filter, filter_enumeration_fallback once]
  rfl

theorem FallbackPhase.listsFallback_iff
    {declarations : List Declaration}
    {lexicon : Lexicon}
    (phase : FallbackPhase declarations lexicon)
    (once : lexicon.AssignedOnce) :
    lexicon.ListsFallback ↔ ¬FallbackLeftBehind declarations := by
  rw [Lexicon.listsFallback_iff once]
  cases phase with
  | untouched undeclared unlabelled fallback_eq value_eq =>
    have ahead : ¬FallbackLeftBehind declarations := by
      rintro ⟨_, word, value, one, _⟩
      simp [unlabelled] at one
    simp [fallback_eq, value_eq, ahead]
  | labelled word value chosen undeclared labelled fallback_eq value_eq
      chosen_iff =>
    have behind_iff : FallbackLeftBehind declarations ↔
        value ≠ some undeclaredFallback.value := by
      constructor
      · rintro ⟨_, otherWord, otherValue, one, different⟩
        rw [labelled, List.singleton_inj, Declaration.entry.injEq] at one
        exact one.2.2 ▸ different
      · intro different
        exact ⟨undeclared, word, value, labelled, different⟩
    rw [behind_iff, fallback_eq, value_eq, not_not, ← chosen_iff]
    rfl
  | declared settled value_eq =>
    have ahead : ¬FallbackLeftBehind declarations := by
      rintro ⟨undeclared, word, value, one, _⟩
      rcases settled with someFallback | manyWords
      · simp [undeclared] at someFallback
      · simp [one] at manyWords
    simp [value_eq, ahead]

/-- The enumeration lists the fallback, and an input that is no word stands
for the value that the enumeration gives to its label, after every history
that does not leave the fallback behind, and after no other. -/
theorem listsFallback_after_iff (history : List Declaration) :
    ((after history).ListsFallback ↔
      ¬FallbackLeftBehind (followed history)) ∧
    ∀ config recognizer input,
      (after history).recognizer config = .ok recognizer →
      recognizer.lookupWord? input = none →
      ((after history).enumeratedValue? (recognizer.lookup input).label =
          some (recognizer.lookup input).value ↔
        ¬FallbackLeftBehind (followed history)) := by
  have once := assignedOnce_after history
  have phase := (fallbackPhase (ofDeclarations?_followed history)).1
  have lists_iff := phase.listsFallback_iff once
  refine ⟨lists_iff, ?_⟩
  intro config recognizer input built unknown
  have fallback_eq : recognizer.lookup input = (after history).fallback := by
    unfold Recognizer.lookup
    rw [unknown, Option.getD_none]
    exact fallback_of_recognizer built
  rw [fallback_eq, enumeratedValue?_fallback once, Option.some_inj,
    ← Lexicon.listsFallback_iff once]
  exact lists_iff

/-- One word with the label of the undeclared fallback is enough to leave it
behind. -/
theorem not_listsFallback_unknown_word :
    ¬(after [.entry [120] "Unknown" (some 5)]).ListsFallback := by
  decide

end Lexicon
end WordSwitch
