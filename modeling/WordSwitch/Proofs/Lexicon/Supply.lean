import Mathlib.Data.List.ReduceOption
import WordSwitch.Proofs.Lexicon.Assertions

/-!
# Values that no declaration states

A word that is declared without a value gets the one above all values that its
history gave, whether they were declared or taken from the supply and whether
they still hold.  Only if the largest value was given does it fail, and then
the history goes on as if it had not been declared.
-/

namespace WordSwitch

namespace Declaration

/-- Whether what is declared is a value, if one is declared. -/
def InRange : Declaration → Prop
  | entry _ _ none => True
  | entry _ _ (some value) => minValue ≤ value ∧ value ≤ maxValue
  | fallback _ value => minValue ≤ value ∧ value ≤ maxValue

instance (declaration : Declaration) : Decidable declaration.InRange :=
  match declaration with
  | entry _ _ none => inferInstanceAs (Decidable True)
  | entry _ _ (some _) => inferInstanceAs (Decidable (_ ∧ _))
  | fallback _ _ => inferInstanceAs (Decidable (_ ∧ _))

end Declaration

namespace Lexicon

/-- The value that a declaration gives to its label; `none` if it fails. -/
def given? (lexicon : Lexicon) : Declaration → Option Int
  | .entry word label value =>
    (lexicon.declareWord? word label value).map (·.1)
  | .fallback _ value => some value

/-- What each declaration gives when its turn comes. -/
def resultsFrom : Lexicon → List Declaration → List (Option Int)
  | _, [] => []
  | lexicon, declaration :: later =>
    lexicon.given? declaration ::
      resultsFrom (lexicon.declare declaration) later

/-- What each declaration of a history gives. -/
def results (history : List Declaration) : List (Option Int) :=
  resultsFrom empty history

/-- The largest value that a history gave, and at least minus one. -/
def highestValue (history : List Declaration) : Int :=
  (results history).reduceOption.foldl max (-1)

/-! ## One more declaration -/

@[simp] theorem after_append (earlier later : List Declaration) :
    after (earlier ++ later) = later.foldl declare (after earlier) :=
  List.foldl_append

theorem followedFrom_append
    (lexicon : Lexicon)
    (earlier later : List Declaration) :
    followedFrom lexicon (earlier ++ later) =
      followedFrom lexicon earlier ++
        followedFrom (earlier.foldl declare lexicon) later := by
  induction earlier generalizing lexicon with
  | nil => rfl
  | cons declaration rest hypothesis =>
    simp only [List.cons_append, followedFrom, hypothesis, List.foldl_cons]
    split <;> rfl

theorem resultsFrom_append
    (lexicon : Lexicon)
    (earlier later : List Declaration) :
    resultsFrom lexicon (earlier ++ later) =
      resultsFrom lexicon earlier ++
        resultsFrom (earlier.foldl declare lexicon) later := by
  induction earlier generalizing lexicon with
  | nil => rfl
  | cons declaration rest hypothesis =>
    simp only [List.cons_append, resultsFrom, hypothesis, List.foldl_cons]

/-- What later declarations give depends on the lexicon they are followed
in. -/
theorem results_append (earlier later : List Declaration) :
    results (earlier ++ later) =
      results earlier ++ resultsFrom (after earlier) later :=
  resultsFrom_append empty earlier later

theorem highestValue_append_singleton
    (earlier : List Declaration)
    (declaration : Declaration) :
    highestValue (earlier ++ [declaration]) =
      (((after earlier).given? declaration).map
        (max (highestValue earlier))).getD (highestValue earlier) := by
  unfold highestValue
  rw [results_append, List.reduceOption_append, List.foldl_append]
  cases outcome : (after earlier).given? declaration <;>
    simp [resultsFrom, outcome, List.reduceOption]

/-- A declaration fails exactly if it gives no value. -/
theorem isSome_declare? (lexicon : Lexicon) (declaration : Declaration) :
    (lexicon.declare? declaration).isSome =
      (lexicon.given? declaration).isSome := by
  cases declaration with
  | entry word label value => simp [declare?, given?]
  | fallback label value => rfl

/-! ## The supply -/

/-- What a declaration gives is what it asserts. -/
theorem Holds.given?_eq
    {assertions : List Assertion}
    {lexicon : Lexicon}
    (holds : lexicon.Holds assertions)
    {declaration : Declaration}
    {value : Int}
    (gives : lexicon.given? declaration = some value) :
    (declaration.assertion assertions).value = value := by
  cases declaration with
  | entry word label declared =>
    obtain ⟨⟨chosen, next⟩, succeeds, rfl⟩ := Option.map_eq_some_iff.mp gives
    obtain ⟨supply, choice, _⟩ := eq_of_declareWord? succeeds
    exact (of_chooseValue? holds.supply choice).1.symm
  | fallback label declared => exact Option.some.inj gives

/-- The values that a history gave are those that it asserted. -/
theorem highestValue_eq (history : List Declaration) :
    highestValue history =
      Assertions.largestValue
        (Declaration.assertions (followed history)) := by
  induction history using List.reverseRecOn with
  | nil => rfl
  | append_singleton earlier declaration hypothesis =>
    have holds := holds_assertions (ofDeclarations?_followed earlier)
    have followed_eq : followed (earlier ++ [declaration]) =
        followed earlier ++ followedFrom (after earlier) [declaration] :=
      followedFrom_append empty earlier [declaration]
    rw [highestValue_append_singleton, followed_eq, hypothesis]
    simp only [followedFrom, isSome_declare?]
    cases outcome : (after earlier).given? declaration with
    | none => simp
    | some value =>
      rw [Option.isSome_some, if_pos rfl,
        Declaration.assertions_append_singleton,
        Assertions.largestValue_append_singleton, holds.given?_eq outcome]
      rfl

/-- The supply stands above all values that a history gave. -/
theorem next_after (history : List Declaration) :
    (after history).supply.next = nextValue? (highestValue history) := by
  rw [highestValue_eq]
  exact (holds_assertions (ofDeclarations?_followed history)).supply

/-- A word without a value gets the one above the largest that was given. -/
theorem given?_unvalued
    (history : List Declaration)
    (word : Bytes)
    (label : String) :
    (after history).given? (.entry word label none) =
      nextValue? (highestValue history) := by
  rw [← next_after]
  simp [given?, declareWord?, chooseValue?, ValueSupply.take?,
    Function.comp_def]

/-- If only values are declared, only values are given. -/
theorem highestValue_le
    {history : List Declaration}
    (ranged : ∀ declaration ∈ history, declaration.InRange) :
    highestValue history ≤ maxValue := by
  induction history using List.reverseRecOn with
  | nil => decide
  | append_singleton earlier declaration hypothesis =>
    have before := hypothesis fun other listed =>
      ranged other (List.mem_append_left _ listed)
    have inRange := ranged declaration (by simp)
    have given_le : ∀ value, (after earlier).given? declaration = some value →
        value ≤ maxValue := by
      intro value gives
      match declaration with
      | .entry word label none =>
        rw [given?_unvalued, nextValue?] at gives
        split at gives
        · have equal := Option.some.inj gives
          omega
        · cases gives
      | .entry word label (some declared) =>
        obtain rfl := Option.some.inj gives
        exact inRange.2
      | .fallback label declared =>
        obtain rfl := Option.some.inj gives
        exact inRange.2
    rw [highestValue_append_singleton]
    cases outcome : (after earlier).given? declaration with
    | none => exact before
    | some value => exact Int.max_le.mpr ⟨before, given_le value outcome⟩

end Lexicon

namespace Assertions

/-- No value that is asserted exceeds the largest. -/
theorem value_le_largestValue
    {assertions : List Assertion}
    {assertion : Assertion}
    (asserted : assertion ∈ assertions) :
    assertion.value ≤ largestValue assertions := by
  induction assertions using List.reverseRecOn with
  | nil => cases asserted
  | append_singleton earlier last hypothesis =>
    rw [largestValue_append_singleton]
    rcases List.mem_append.mp asserted with before | here
    · exact Int.le_trans (hypothesis before) (Int.le_max_left _ _)
    · rw [List.mem_singleton.mp here]
      exact Int.le_max_right _ _

theorem neg_one_le_largestValue (assertions : List Assertion) :
    -1 ≤ largestValue assertions := by
  induction assertions using List.reverseRecOn with
  | nil => decide
  | append_singleton earlier last hypothesis =>
    rw [largestValue_append_singleton]
    exact Int.le_trans hypothesis (Int.le_max_left _ _)

theorem value_le_of_mem_enumeration
    {assertions : List Assertion}
    {member : Enumerator}
    (listed : member ∈ enumeration assertions) :
    member.value ≤ largestValue assertions := by
  have labelled_le : member ∈ labelled assertions →
      member.value ≤ largestValue assertions := by
    intro inLabelled
    obtain ⟨label, _, found⟩ := List.mem_filterMap.mp inLabelled
    obtain ⟨value, value_eq, rfl⟩ := Option.map_eq_some_iff.mp found
    obtain ⟨assertion, last, rfl⟩ := Option.map_eq_some_iff.mp value_eq
    exact value_le_largestValue (mem_of_last? last)
  unfold enumeration at listed
  split at listed
  · exact labelled_le listed
  · rcases List.mem_append.mp listed with inLabelled | undeclared
    · exact labelled_le inLabelled
    · rw [List.mem_singleton.mp undeclared]
      exact neg_one_le_largestValue assertions

end Assertions

namespace Lexicon

/-- The enumeration holds no value above those that the history gave. -/
theorem largestValue_le (history : List Declaration) :
    (after history).largestValue ≤ highestValue history := by
  have reached := ofDeclarations?_followed history
  have once := assignedOnce_after history
  have enumeration_eq := (holds_assertions reached).enumeration_eq once
    (fallbackPhase reached).1
  unfold largestValue
  cases largest : ((after history).enumeration.map Enumerator.value).max? with
  | none =>
    have nothing := filter_enumeration_fallback once
    rw [List.max?_eq_none_iff, List.map_eq_nil_iff] at largest
    rw [largest] at nothing
    cases nothing
  | some value =>
    obtain ⟨member, listed, rfl⟩ := List.mem_map.mp (List.max?_mem largest)
    rw [Option.getD_some, highestValue_eq]
    exact Assertions.value_le_of_mem_enumeration (enumeration_eq ▸ listed)

/-- A word without a value fails exactly if the largest value was given. -/
theorem declareWord?_unvalued_eq_none_iff
    {history : List Declaration}
    (ranged : ∀ declaration ∈ history, declaration.InRange)
    (word : Bytes)
    (label : String) :
    (after history).declareWord? word label none = none ↔
      highestValue history = maxValue := by
  have bound := highestValue_le ranged
  have gives := given?_unvalued history word label
  rw [given?, nextValue?] at gives
  rw [← Option.map_eq_none_iff, gives]
  split
  · next left => simp [Int.ne_of_lt left]
  · next dry =>
    have equal : highestValue history = maxValue := by omega
    simp [equal]

/-- A declaration fails exactly if it is one of a word without a value and the
largest value was given. -/
theorem declare?_eq_none_iff
    {history : List Declaration}
    (ranged : ∀ declaration ∈ history, declaration.InRange)
    {declaration : Declaration} :
    (after history).declare? declaration = none ↔
      (∃ word label, declaration = .entry word label none) ∧
        highestValue history = maxValue := by
  cases declaration with
  | fallback label value => simp [declare?]
  | entry word label value =>
    rw [declare?, Option.map_eq_none_iff]
    cases value with
    | none =>
      rw [declareWord?_unvalued_eq_none_iff ranged]
      simp
    | some value => simp [declareWord?, chooseValue?]

/-- A word that fails gives nothing and leaves the lexicon as it is. -/
theorem given?_and_declare_of_eq_none
    {lexicon : Lexicon}
    {word : Bytes}
    {label : String}
    {value : Option Int}
    (fails : lexicon.declareWord? word label value = none) :
    lexicon.given? (.entry word label value) = none ∧
      lexicon.declare (.entry word label value) = lexicon := by
  simp [given?, declare, declare?, fails]

/-- After any history, a word without a value gets the one above all that were
given, which is above all that are enumerated.  It fails exactly if the largest
value was given, and then it changes nothing and no result of what comes
later.  A word with a value never fails. -/
theorem suppliedValue_after
    {history : List Declaration}
    (ranged : ∀ declaration ∈ history, declaration.InRange)
    (word : Bytes)
    (label : String) :
    let lexicon := after history
    let highest := highestValue history
    (highest < maxValue →
      ∃ next, lexicon.declareWord? word label none =
        some (highest + 1, next)) ∧
    lexicon.largestValue < highest + 1 ∧
    (lexicon.declareWord? word label none = none ↔ highest = maxValue) ∧
    (lexicon.declareWord? word label none = none →
      ∀ later,
        after (history ++ .entry word label none :: later) =
          after (history ++ later) ∧
        results (history ++ later) =
          results history ++ resultsFrom lexicon later ∧
        results (history ++ .entry word label none :: later) =
          results history ++ none :: resultsFrom lexicon later) ∧
    ∀ value, ∃ next, lexicon.declareWord? word label (some value) =
      some (value, next) := by
  intro lexicon highest
  refine ⟨?_, ?_, ?_, ?_, ?_⟩
  · intro left
    have gives := given?_unvalued history word label
    rw [nextValue?, if_pos left] at gives
    obtain ⟨⟨chosen, next⟩, succeeds, rfl⟩ := Option.map_eq_some_iff.mp gives
    exact ⟨next, succeeds⟩
  · exact Int.lt_add_one_of_le (largestValue_le history)
  · exact declareWord?_unvalued_eq_none_iff ranged word label
  · intro fails later
    obtain ⟨nothing, unchanged⟩ := given?_and_declare_of_eq_none fails
    refine ⟨?_, results_append history later, ?_⟩
    · rw [after_append, after_append, List.foldl_cons, unchanged]
    · rw [results_append, resultsFrom, nothing, unchanged]
  · intro value
    exact ⟨_, rfl⟩

/-- A history that gave the largest value and replaced it. -/
def exhausted : List Declaration :=
  [.entry [97] "First" none, .entry [98] "Second" (some 9223372036854775806),
    .entry [99] "Third" none, .entry [100] "Fourth" none,
    .fallback (some "Third") 4, .entry [98] "Second" (some (-7))]

theorem suppliedValue_after_exhausted :
    (∀ declaration ∈ exhausted, declaration.InRange) ∧
    results exhausted = [some 0, some 9223372036854775806,
      some 9223372036854775807, none, some 4, some (-7)] ∧
    (after exhausted).largestValue = 4 ∧
    (after exhausted).declareWord? [101] "Fifth" none = none ∧
    (∀ later, after (exhausted ++ .entry [101] "Fifth" none :: later) =
      after (exhausted ++ later)) ∧
    highestValue (exhausted.take 2) = 9223372036854775806 ∧
    ∃ next, (after (exhausted.take 2)).declareWord? [101] "Fifth" none =
      some (9223372036854775807, next) := by
  have ranged : ∀ declaration ∈ exhausted, declaration.InRange := by decide
  have rangedBefore : ∀ declaration ∈ exhausted.take 2,
      declaration.InRange := by decide
  have highest_eq : highestValue exhausted = maxValue := by decide
  obtain ⟨_, _, fails_iff, unchanged, _⟩ :=
    suppliedValue_after ranged [101] "Fifth"
  obtain ⟨succeeds, _⟩ := suppliedValue_after rangedBefore [101] "Fifth"
  have fails := fails_iff.mpr highest_eq
  exact ⟨ranged, by decide, by decide, fails,
    fun later => (unchanged fails later).1, by decide, succeeds (by decide)⟩

end Lexicon
end WordSwitch
