import WordSwitch.Proofs.Lexicon.Fallback

/-!
# What declarations assert

A declaration asserts a label and a value, of a word or of the fallback.  What
it leaves out is settled by what was asserted before it: a word without a value
gets the one above the largest so far, and a fallback without a label keeps the
label it has.  A lexicon holds what was asserted last: of each word its label,
and of each label its value.
-/

namespace WordSwitch

/-- A label and a value, asserted of a word or, if there is none, of the
fallback. -/
structure Assertion where
  word : Option Bytes
  label : String
  value : Int
deriving DecidableEq, Repr

namespace Assertions

/-- The last assertion of a kind. -/
def last?
    (kind : Assertion → Bool)
    (assertions : List Assertion) :
    Option Assertion :=
  (assertions.filter kind).getLast?

/-- The distinct values of a list in order of first mention. -/
def firstMentions {α : Type} [DecidableEq α] (values : List α) : List α :=
  values.eraseDups

/-- Put a value last unless it was mentioned before. -/
def mention {α : Type} [DecidableEq α] (value : α) (values : List α) : List α :=
  if value ∈ values then values else values ++ [value]

/-- The words in order of first mention. -/
def words (assertions : List Assertion) : List Bytes :=
  firstMentions (assertions.filterMap Assertion.word)

/-- The labels in order of first mention. -/
def labels (assertions : List Assertion) : List String :=
  firstMentions (assertions.map Assertion.label)

/-- The label last asserted of a word. -/
def labelOf? (assertions : List Assertion) (word : Bytes) : Option String :=
  (last? (·.word == some word) assertions).map Assertion.label

/-- The value last asserted of a label. -/
def valueOf? (assertions : List Assertion) (label : String) : Option Int :=
  (last? (·.label == label) assertions).map Assertion.value

/-- The label last asserted of the fallback. -/
def fallbackLabel (assertions : List Assertion) : String :=
  ((last? (·.word.isNone) assertions).map Assertion.label).getD
    Lexicon.undeclaredFallback.label

/-- The largest value asserted, and at least minus one. -/
def largestValue (assertions : List Assertion) : Int :=
  (assertions.map Assertion.value).foldl max (-1)

/-- Each word with its label and the value of that. -/
def entries (assertions : List Assertion) : List Entry :=
  (words assertions).filterMap fun word =>
    (labelOf? assertions word).bind fun label =>
      (valueOf? assertions label).map fun value => ⟨word, label, value⟩

/-- Each label with its value. -/
def labelled (assertions : List Assertion) : List Enumerator :=
  (labels assertions).filterMap fun label =>
    (valueOf? assertions label).map fun value => ⟨label, value⟩

/-- Each label with its value, and the undeclared fallback last unless its
label is among them. -/
def enumeration (assertions : List Assertion) : List Enumerator :=
  if fallbackLabel assertions ∈ labels assertions then labelled assertions
  else labelled assertions ++ [Lexicon.undeclaredFallback]

/-! ## One more assertion -/

section

variable
  (earlier : List Assertion)
  (assertion : Assertion)

theorem last?_append_singleton (kind : Assertion → Bool) :
    last? kind (earlier ++ [assertion]) =
      if kind assertion then some assertion else last? kind earlier := by
  unfold last?
  rw [List.filter_append, List.filter_singleton]
  cases kind assertion <;> simp

theorem mem_of_last?
    {kind : Assertion → Bool}
    {assertions : List Assertion}
    {assertion : Assertion}
    (last : last? kind assertions = some assertion) :
    assertion ∈ assertions :=
  List.mem_of_mem_filter (List.mem_of_getLast? last)

/-- A label that is asserted has a value. -/
theorem exists_valueOf?_of_mem
    {assertions : List Assertion}
    {assertion : Assertion}
    (asserted : assertion ∈ assertions) :
    ∃ value, valueOf? assertions assertion.label = some value := by
  have listed : assertion ∈ assertions.filter (·.label == assertion.label) :=
    List.mem_filter.mpr ⟨asserted, beq_self_eq_true _⟩
  cases last : last? (·.label == assertion.label) assertions with
  | none =>
    rw [last?, List.getLast?_eq_none_iff] at last
    rw [last] at listed
    cases listed
  | some other => exact ⟨other.value, by rw [valueOf?, last]; rfl⟩

theorem firstMentions_append_singleton
    {α : Type}
    [DecidableEq α]
    (values : List α)
    (value : α) :
    firstMentions (values ++ [value]) =
      mention value (firstMentions values) := by
  unfold mention firstMentions
  rw [List.eraseDups_append]
  by_cases present : value ∈ values
  · simp [List.removeAll, present]
  · simp [List.removeAll, present, List.eraseDups_cons]

theorem words_append_of_fallback
    {assertion : Assertion}
    (fallback : assertion.word = none) :
    words (earlier ++ [assertion]) = words earlier := by
  simp [words, fallback]

theorem words_append_of_word
    {assertion : Assertion}
    {word : Bytes}
    (about : assertion.word = some word) :
    words (earlier ++ [assertion]) = mention word (words earlier) := by
  unfold words
  rw [List.filterMap_append, List.filterMap_cons_some about,
    List.filterMap_nil]
  exact firstMentions_append_singleton _ word

theorem labels_append_singleton :
    labels (earlier ++ [assertion]) =
      mention assertion.label (labels earlier) := by
  unfold labels
  rw [List.map_append]
  exact firstMentions_append_singleton _ assertion.label

theorem labelOf?_append_singleton (word : Bytes) :
    labelOf? (earlier ++ [assertion]) word =
      if assertion.word = some word then some assertion.label
      else labelOf? earlier word := by
  unfold labelOf?
  rw [last?_append_singleton]
  by_cases same : assertion.word = some word <;> simp [same]

theorem valueOf?_append_singleton (label : String) :
    valueOf? (earlier ++ [assertion]) label =
      if assertion.label = label then some assertion.value
      else valueOf? earlier label := by
  unfold valueOf?
  rw [last?_append_singleton]
  by_cases same : assertion.label = label <;> simp [same]

theorem fallbackLabel_append_singleton :
    fallbackLabel (earlier ++ [assertion]) =
      if assertion.word = none then assertion.label
      else fallbackLabel earlier := by
  unfold fallbackLabel
  rw [last?_append_singleton]
  cases assertion.word <;> simp

theorem largestValue_append_singleton :
    largestValue (earlier ++ [assertion]) =
      max (largestValue earlier) assertion.value := by
  simp [largestValue]

end

end Assertions

/-- What a declaration asserts after others. -/
def Declaration.assertion (earlier : List Assertion) : Declaration → Assertion
  | entry word label value =>
    ⟨some word, label, value.getD (Assertions.largestValue earlier + 1)⟩
  | fallback label value =>
    ⟨none, label.getD (Assertions.fallbackLabel earlier), value⟩

/-- What declarations assert, in their order. -/
def Declaration.assertions (declarations : List Declaration) : List Assertion :=
  declarations.foldl
    (fun earlier declaration => earlier ++ [declaration.assertion earlier]) []

theorem Declaration.assertions_append_singleton
    (earlier : List Declaration)
    (declaration : Declaration) :
    assertions (earlier ++ [declaration]) =
      assertions earlier ++ [declaration.assertion (assertions earlier)] := by
  rw [assertions, List.foldl_append]
  rfl

namespace OrderedMap

/-- What is listed is what is found for the keys in their order. -/
theorem filterMap_keys
    {κ ν β : Type}
    [DecidableEq κ]
    {map : OrderedMap κ ν}
    (nodup : map.keys.Nodup)
    (make : κ → ν → Option β) :
    (map.keys.filterMap fun key => (map.get? key).bind (make key)) =
      map.toList.filterMap fun pair => make pair.1 pair.2 := by
  unfold keys
  rw [List.filterMap_map]
  refine List.filterMap_congr ?_
  intro pair listed
  have found : map.get? pair.1 = some pair.2 :=
    (mem_toList_iff nodup).mp listed
  rw [Function.comp_apply, found, Option.bind_some]

end OrderedMap

namespace Lexicon

/-! ## The supply of values -/

theorem next_observe
    {supply : ValueSupply}
    {largest : Int}
    (above : supply.next = nextValue? largest)
    (value : Int) :
    (supply.observe value).next = nextValue? (max largest value) := by
  unfold ValueSupply.observe
  rw [above]
  unfold nextValue?
  split_ifs <;> grind

/-- A word without a value gets the one above the largest so far. -/
theorem of_chooseValue?
    {lexicon : Lexicon}
    {largest chosen : Int}
    {value : Option Int}
    {supply : ValueSupply}
    (above : lexicon.supply.next = nextValue? largest)
    (choice : lexicon.chooseValue? value = some (chosen, supply)) :
    chosen = value.getD (largest + 1) ∧
      supply.next = nextValue? (max largest chosen) := by
  cases value with
  | some value =>
    obtain ⟨rfl, rfl⟩ := Prod.mk.inj (Option.some.inj choice)
    exact ⟨rfl, next_observe above value⟩
  | none =>
    obtain ⟨next, next_eq, pair⟩ := Option.map_eq_some_iff.mp choice
    obtain ⟨rfl, rfl⟩ := Prod.mk.inj pair
    have next_above : next = largest + 1 := by
      rw [above, nextValue?] at next_eq
      split at next_eq
      · exact (Option.some.inj next_eq).symm
      · cases next_eq
    have largest_le : max largest next = next := by omega
    rw [largest_le]
    exact ⟨next_above, rfl⟩

/-! ## What a lexicon holds -/

/-- A lexicon that holds what was asserted last. -/
structure Holds (assertions : List Assertion) (lexicon : Lexicon) : Prop where
  words : lexicon.words.keys = Assertions.words assertions
  labelOf : ∀ word,
    lexicon.words.get? word = Assertions.labelOf? assertions word
  labels : lexicon.labels.keys = Assertions.labels assertions
  valueOf : ∀ label,
    lexicon.valueOf? label = Assertions.valueOf? assertions label
  fallbackLabel :
    lexicon.fallback.label = Assertions.fallbackLabel assertions
  supply :
    lexicon.supply.next = nextValue? (Assertions.largestValue assertions)

theorem fallback_label_defineLabel
    (lexicon : Lexicon)
    (label : String)
    (value : Int) :
    (lexicon.defineLabel label value).fallback.label =
      lexicon.fallback.label := by
  unfold defineLabel
  split
  · next follows =>
    rw [Bool.and_eq_true, beq_iff_eq] at follows
    exact follows.2.symm
  · rfl

theorem holds_empty : empty.Holds [] :=
  ⟨rfl, fun _ => rfl, rfl, fun _ => rfl, rfl, rfl⟩

section

variable
  {earlier : List Assertion}
  {lexicon : Lexicon}

/-- Defining a label brings it in step with what is asserted of it. -/
theorem Holds.defineLabel
    (holds : lexicon.Holds earlier)
    (assertion : Assertion) :
    (lexicon.defineLabel assertion.label assertion.value).labels.keys =
        Assertions.labels (earlier ++ [assertion]) ∧
      ∀ label,
        (lexicon.defineLabel assertion.label assertion.value).valueOf? label =
          Assertions.valueOf? (earlier ++ [assertion]) label := by
  constructor
  · rw [Assertions.labels_append_singleton, ← holds.labels]
    exact OrderedMap.keys_assign lexicon.labels assertion.label assertion.value
  · intro label
    rw [valueOf?_defineLabel, Assertions.valueOf?_append_singleton,
      ← holds.valueOf label]
    simp only [eq_comm]

theorem Holds.declareWord
    (holds : lexicon.Holds earlier)
    {word : Bytes}
    {label : String}
    {value : Option Int}
    {chosen : Int}
    {next : Lexicon}
    (declared : lexicon.declareWord? word label value = some (chosen, next)) :
    next.Holds
      (earlier ++ [Declaration.assertion earlier (.entry word label value)]) := by
  obtain ⟨supply, choice, rfl⟩ := eq_of_declareWord? declared
  obtain ⟨chosen_eq, above⟩ := of_chooseValue? holds.supply choice
  have assertion_eq :
      Declaration.assertion earlier (.entry word label value) =
        ⟨some word, label, chosen⟩ := by
    rw [Declaration.assertion, chosen_eq]
  rw [assertion_eq]
  obtain ⟨labels_eq, values_eq⟩ :=
    holds.defineLabel ⟨some word, label, chosen⟩
  refine ⟨?_, ?_, labels_eq, values_eq, ?_, ?_⟩
  · rw [Assertions.words_append_of_word earlier rfl, ← holds.words]
    exact OrderedMap.keys_assign lexicon.words word label
  · intro other
    rw [Assertions.labelOf?_append_singleton, ← holds.labelOf other]
    by_cases same : word = other
    · subst same
      rw [if_pos rfl]
      exact OrderedMap.get?_assign_self lexicon.words word label
    · rw [if_neg (by simpa using same)]
      exact OrderedMap.get?_assign_of_ne lexicon.words (Ne.symm same) label
  · rw [Assertions.fallbackLabel_append_singleton, if_neg (by simp),
      ← holds.fallbackLabel]
    exact fallback_label_defineLabel lexicon label chosen
  · rw [Assertions.largestValue_append_singleton]
    exact above

theorem Holds.declareFallback
    (holds : lexicon.Holds earlier)
    (label : Option String)
    (value : Int) :
    (lexicon.declareFallback label value).Holds
      (earlier ++ [Declaration.assertion earlier (.fallback label value)]) := by
  have assertion_eq :
      Declaration.assertion earlier (.fallback label value) =
        ⟨none, label.getD lexicon.fallback.label, value⟩ := by
    rw [Declaration.assertion, holds.fallbackLabel]
  rw [assertion_eq]
  obtain ⟨labels_eq, values_eq⟩ :=
    holds.defineLabel ⟨none, label.getD lexicon.fallback.label, value⟩
  refine ⟨?_, ?_, labels_eq, values_eq, ?_, ?_⟩
  · rw [Assertions.words_append_of_fallback earlier rfl]
    exact holds.words
  · intro word
    rw [Assertions.labelOf?_append_singleton, if_neg (by simp),
      ← holds.labelOf word]
    rfl
  · rw [Assertions.fallbackLabel_append_singleton, if_pos rfl]
    rfl
  · rw [Assertions.largestValue_append_singleton]
    exact next_observe holds.supply value

end

/-- A lexicon holds what its declarations asserted last. -/
theorem holds_assertions
    {declarations : List Declaration}
    {lexicon : Lexicon}
    (reached : ofDeclarations? declarations = some lexicon) :
    lexicon.Holds (Declaration.assertions declarations) := by
  refine induction_followed
    (motive := fun declarations lexicon =>
      lexicon.Holds (Declaration.assertions declarations))
    holds_empty ?_ ?_ reached
  · intro earlier before word label value chosen next holds declared
    rw [Declaration.assertions_append_singleton]
    exact holds.declareWord declared
  · intro earlier before label value holds
    rw [Declaration.assertions_append_singleton]
    exact holds.declareFallback label value

/-! ## The entries and the enumeration -/

section

variable
  {assertions : List Assertion}
  {lexicon : Lexicon}

/-- The label of a word has a value. -/
theorem Holds.exists_valueOf?
    (holds : lexicon.Holds assertions)
    {word : Bytes}
    {label : String}
    (carries : lexicon.words.get? word = some label) :
    ∃ value, lexicon.valueOf? label = some value := by
  rw [holds.labelOf] at carries
  obtain ⟨assertion, last, rfl⟩ := Option.map_eq_some_iff.mp carries
  obtain ⟨value, asserted⟩ :=
    Assertions.exists_valueOf?_of_mem (Assertions.mem_of_last? last)
  exact ⟨value, (holds.valueOf assertion.label).trans asserted⟩

theorem Holds.entries_eq
    (holds : lexicon.Holds assertions)
    (once : lexicon.AssignedOnce) :
    lexicon.entries = Assertions.entries assertions := by
  unfold Assertions.entries
  simp only [← holds.words, ← holds.labelOf, ← holds.valueOf]
  rw [OrderedMap.filterMap_keys once.words, entries, ← List.filterMap_eq_map]
  refine List.filterMap_congr ?_
  intro pair listed
  obtain ⟨value, value_eq⟩ := holds.exists_valueOf?
    ((OrderedMap.mem_toList_iff once.words).mp listed)
  simp [value_eq]

theorem Holds.map_labels
    (holds : lexicon.Holds assertions)
    (once : lexicon.AssignedOnce) :
    (lexicon.labels.toList.map fun pair =>
        (⟨pair.1, pair.2⟩ : Enumerator)) =
      Assertions.labelled assertions := by
  have listed := OrderedMap.filterMap_keys once.labels
    fun label value => some (⟨label, value⟩ : Enumerator)
  unfold Assertions.labelled
  simp only [← holds.labels, ← holds.valueOf, Option.map_eq_bind]
  rw [← List.filterMap_eq_map]
  exact listed.symm

/-- As long as the label of the fallback is not asserted, no fallback is
declared. -/
theorem Holds.enumeration_eq
    {declarations : List Declaration}
    (holds : lexicon.Holds assertions)
    (once : lexicon.AssignedOnce)
    (phase : FallbackPhase declarations lexicon) :
    lexicon.enumeration = Assertions.enumeration assertions := by
  have listed_iff : Assertions.fallbackLabel assertions ∈
      Assertions.labels assertions ↔
        lexicon.valueOf? lexicon.fallback.label ≠ none := by
    rw [← holds.labels, ← holds.fallbackLabel, Ne, valueOf?,
      OrderedMap.get?_eq_none_iff, not_not]
  unfold enumeration Assertions.enumeration
  rw [holds.map_labels once]
  cases value_eq : lexicon.valueOf? lexicon.fallback.label with
  | some value =>
    rw [if_pos (listed_iff.mpr (by simp [value_eq]))]
  | none =>
    rw [if_neg (by simp [listed_iff, value_eq])]
    cases phase with
    | untouched _ _ fallback_eq _ => rw [fallback_eq]
    | labelled _ _ _ _ _ fallback_eq known _ =>
      rw [fallback_eq, known] at value_eq
      cases value_eq
    | declared _ known =>
      rw [known] at value_eq
      cases value_eq

/-- A declared fallback has the value of its label. -/
theorem FallbackPhase.valueOf?_fallback
    {declarations : List Declaration}
    (phase : FallbackPhase declarations lexicon)
    (declared : declarations.any Declaration.isFallback = true) :
    lexicon.valueOf? lexicon.fallback.label =
      some lexicon.fallback.value := by
  cases phase with
  | untouched undeclared => simp [undeclared] at declared
  | labelled _ _ _ undeclared => simp [undeclared] at declared
  | declared _ known => exact known

end

end Lexicon
end WordSwitch
