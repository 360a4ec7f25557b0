import WordSwitch.Proofs.Lexicon.Supply
import WordSwitch.Proofs.WordList.Identifiers

/-!
# Members of the enumeration

The enumeration of a lexicon has a largest member and lists no label twice.  If
the lexicon is read from a word list, all labels of the enumeration are
identifiers and 64 bits hold all values, also those of labels that no word
carries any more.
-/

namespace WordSwitch

/-- A label that is an identifier and a value that 64 bits hold. -/
structure Enumerator.IsValid (member : Enumerator) : Prop where
  identifier : Label.isIdentifier member.label = true
  least : minValue ≤ member.value
  largest : member.value ≤ maxValue

/-! ## What lines declare -/

theorem Numeral.inRange_of_read
    {numeral : Bytes}
    {value : Int}
    (stands : Numeral.read numeral = .ok value) :
    minValue ≤ value ∧ value ≤ maxValue := by
  unfold Numeral.read at stands
  dsimp only at stands
  split at stands
  · unfold Numeral.negated Numeral.inRange? at stands
    split at stands
    · next inside =>
      cases stands
      split at inside
      · next inRange =>
        cases inside
        exact inRange
      · cases inside
    · cases stands
  · cases stands

theorem Line.DeclaresValue.inRange
    {part : Option Bytes}
    {value : Int}
    (declares : Line.DeclaresValue part (some value)) :
    minValue ≤ value ∧ value ≤ maxValue := by
  cases declares with
  | present _ stands => exact Numeral.inRange_of_read stands

/-- A line declares a value that 64 bits hold, if it declares one. -/
theorem Line.Declares.inRange
    {line : Bytes}
    {declaration : Declaration}
    (declares : Line.Declares line declaration) :
    declaration.InRange := by
  obtain ⟨parts, _, declares⟩ := declares
  cases declares with
  | @labelled _ _ _ _ _ value _ _ _ declaresValue =>
    cases value with
    | none => trivial
    | some value => exact declaresValue.inRange
  | @unlabelled _ _ _ value _ _ _ declaresValue =>
    cases value with
    | none => trivial
    | some value => exact declaresValue.inRange
  | fallback _ _ declaresValue => exact declaresValue.inRange

namespace Lexicon

/-! ## Valid declarations -/

/-- All labels are identifiers, and 64 bits hold all values and the one that
the supply hands out next. -/
structure Valid (lexicon : Lexicon) : Prop where
  labels : ∀ pair ∈ lexicon.labels.toList,
    (⟨pair.1, pair.2⟩ : Enumerator).IsValid
  fallback : lexicon.fallback.IsValid
  supply : ∀ value ∈ lexicon.supply.next, minValue ≤ value ∧ value ≤ maxValue

theorem inRange_nextValue?
    {value next : Int}
    (least : minValue ≤ value)
    (follows : nextValue? value = some next) :
    minValue ≤ next ∧ next ≤ maxValue := by
  unfold nextValue? at follows
  split at follows
  · have equal := Option.some.inj follows
    omega
  · cases follows

theorem Valid.observe
    {lexicon : Lexicon}
    (valid : lexicon.Valid)
    {value : Int}
    (least : minValue ≤ value) :
    ∀ next ∈ (lexicon.supply.observe value).next,
      minValue ≤ next ∧ next ≤ maxValue := by
  intro next supplied
  unfold ValueSupply.observe at supplied
  split at supplied
  · next left after left_eq after_eq =>
    have before := valid.supply left left_eq
    have later := inRange_nextValue? least after_eq
    cases supplied
    omega
  · cases supplied

/-- The chosen value and what the supply hands out after it are in range. -/
theorem Valid.chooseValue?
    {lexicon : Lexicon}
    (valid : lexicon.Valid)
    {value : Option Int}
    (ranged : ∀ declared ∈ value, minValue ≤ declared ∧ declared ≤ maxValue)
    {chosen : Int}
    {supply : ValueSupply}
    (choice : lexicon.chooseValue? value = some (chosen, supply)) :
    (minValue ≤ chosen ∧ chosen ≤ maxValue) ∧
      ∀ next ∈ supply.next, minValue ≤ next ∧ next ≤ maxValue := by
  cases value with
  | some declared =>
    cases choice
    have inRange := ranged _ rfl
    exact ⟨inRange, valid.observe inRange.1⟩
  | none =>
    obtain ⟨next, next_eq, pair⟩ := Option.map_eq_some_iff.mp choice
    obtain ⟨rfl, rfl⟩ := Prod.mk.inj pair
    have inRange := valid.supply next next_eq
    exact ⟨inRange, fun after follows => inRange_nextValue? inRange.1 follows⟩

theorem Valid.defineLabel
    {lexicon : Lexicon}
    (valid : lexicon.Valid)
    {label : String}
    {value : Int}
    (member : Enumerator.IsValid ⟨label, value⟩) :
    (∀ pair ∈ (lexicon.defineLabel label value).labels.toList,
      (⟨pair.1, pair.2⟩ : Enumerator).IsValid) ∧
    (lexicon.defineLabel label value).fallback.IsValid := by
  refine ⟨?_, ?_⟩
  · intro pair listed
    rcases mem_assignIn listed with rfl | old
    · exact member
    · exact valid.labels pair old
  · unfold Lexicon.defineLabel
    dsimp only
    split
    · exact member
    · exact valid.fallback

/-- A lexicon that follows valid declarations is valid. -/
theorem valid_of_ofDeclarations?
    {declarations : List Declaration}
    {lexicon : Lexicon}
    (reached : ofDeclarations? declarations = some lexicon)
    (declared : ∀ declaration ∈ declarations,
      declaration.HasIdentifier ∧ declaration.InRange) :
    lexicon.Valid := by
  revert declared
  refine induction_followed
    (motive := fun history lexicon =>
      (∀ declaration ∈ history,
        declaration.HasIdentifier ∧ declaration.InRange) → lexicon.Valid)
    ?_ ?_ ?_ reached
  · intro _
    refine ⟨by simp [empty, OrderedMap.empty],
      ⟨by decide, by decide, by decide⟩, ?_⟩
    intro value fresh
    cases fresh
    decide
  · intro earlier before word label value chosen next hypothesis chose declared
    rw [List.forall_mem_append] at declared
    obtain ⟨identifier, ranged⟩ := declared.2 _ List.mem_cons_self
    have valid := hypothesis declared.1
    obtain ⟨supply, choice, rfl⟩ := eq_of_declareWord? chose
    have given : ∀ stated ∈ value, minValue ≤ stated ∧ stated ≤ maxValue := by
      rintro stated rfl
      exact ranged
    obtain ⟨inRange, supplied⟩ := valid.chooseValue? given choice
    have defined := valid.defineLabel ⟨identifier, inRange.1, inRange.2⟩
    exact ⟨defined.1, defined.2, supplied⟩
  · intro earlier before label value hypothesis declared
    rw [List.forall_mem_append] at declared
    obtain ⟨identifier, ranged⟩ := declared.2 _ List.mem_cons_self
    have valid := hypothesis declared.1
    have named : Label.isIdentifier
        (label.getD before.fallback.label) = true := by
      cases label with
      | none => exact valid.fallback.identifier
      | some name => exact identifier name rfl
    have member : Enumerator.IsValid
        ⟨label.getD before.fallback.label, value⟩ :=
      ⟨named, ranged.1, ranged.2⟩
    exact ⟨(valid.defineLabel member).1, member, valid.observe ranged.1⟩

/-! ## The enumeration -/

/-- A lexicon that is read from a word list enumerates identifiers with values
that 64 bits hold. -/
theorem isValid_of_mem_enumeration
    {source : Source}
    {lexicon : Lexicon}
    (read : ofSource source = .ok lexicon) :
    ∀ member ∈ lexicon.enumeration, member.IsValid := by
  obtain ⟨declarations, reached, written⟩ := exists_parsed_of_ofSource read
  have valid : lexicon.Valid := by
    refine valid_of_ofDeclarations? reached ?_
    intro declaration listed
    obtain ⟨line, parsed⟩ := written declaration listed
    have declares := Line.parse_eq_ok_some_iff.mp parsed
    exact ⟨declares.hasIdentifier, declares.inRange⟩
  have declared : ∀ member ∈ lexicon.labels.toList.map
      (fun pair => (⟨pair.1, pair.2⟩ : Enumerator)), member.IsValid :=
    List.forall_mem_map.mpr valid.labels
  unfold enumeration
  split
  · exact declared
  · rw [List.forall_mem_append]
    exact ⟨declared, by simpa using valid.fallback⟩

/-- The enumeration lists no label twice. -/
theorem AssignedOnce.nodup_enumeration
    {lexicon : Lexicon}
    (once : lexicon.AssignedOnce) :
    (lexicon.enumeration.map Enumerator.label).Nodup := by
  have keys_eq : (lexicon.labels.toList.map
      fun pair => (⟨pair.1, pair.2⟩ : Enumerator)).map Enumerator.label =
        lexicon.labels.keys := by
    rw [List.map_map]
    rfl
  unfold enumeration
  split
  · rw [keys_eq]
    exact once.labels
  · next unknown =>
    rw [List.map_append, keys_eq, List.nodup_append]
    refine ⟨once.labels, List.nodup_singleton _, ?_⟩
    rintro label listed other isFallback rfl
    rw [List.map_singleton, List.mem_singleton] at isFallback
    exact OrderedMap.get?_eq_none_iff.mp unknown (isFallback ▸ listed)

/-- The enumeration lists the label of the fallback. -/
theorem AssignedOnce.exists_fallback_member
    {lexicon : Lexicon}
    (once : lexicon.AssignedOnce) :
    ∃ member ∈ lexicon.enumeration,
      member.label = lexicon.fallback.label := by
  have listed := filter_enumeration_fallback once
  have present := List.mem_singleton_self (⟨lexicon.fallback.label,
    (lexicon.valueOf? lexicon.fallback.label).getD
      lexicon.fallback.value⟩ : Enumerator)
  rw [← listed] at present
  exact ⟨_, List.mem_of_mem_filter present, rfl⟩

/-- The enumeration lists the labels of all words. -/
theorem Holds.exists_entry_member
    {assertions : List Assertion}
    {lexicon : Lexicon}
    (holds : lexicon.Holds assertions)
    (once : lexicon.AssignedOnce)
    {entry : Entry}
    (listed : entry ∈ lexicon.entries) :
    ∃ member ∈ lexicon.enumeration, member.label = entry.label := by
  obtain ⟨pair, inWords, rfl⟩ := List.mem_map.mp listed
  obtain ⟨value, known⟩ :=
    holds.exists_valueOf? ((OrderedMap.mem_toList_iff once.words).mp inWords)
  have inLabels := (OrderedMap.mem_toList_iff once.labels).mpr known
  have declared : (⟨pair.2, value⟩ : Enumerator) ∈
      lexicon.labels.toList.map fun pair => ⟨pair.1, pair.2⟩ :=
    List.mem_map_of_mem (f := fun pair => (⟨pair.1, pair.2⟩ : Enumerator))
      inLabels
  refine ⟨⟨pair.2, value⟩, ?_, rfl⟩
  unfold enumeration
  split
  · exact declared
  · exact List.mem_append_left _ declared

/-- Some member of the enumeration has the largest value. -/
theorem AssignedOnce.exists_largest
    {lexicon : Lexicon}
    (once : lexicon.AssignedOnce) :
    ∃ largest ∈ lexicon.enumeration,
      largest.value = lexicon.largestValue ∧
        ∀ member ∈ lexicon.enumeration, member.value ≤ largest.value := by
  unfold largestValue
  cases found : (lexicon.enumeration.map Enumerator.value).max? with
  | none =>
    have listed := filter_enumeration_fallback once
    rw [List.max?_eq_none_iff, List.map_eq_nil_iff] at found
    rw [found] at listed
    cases listed
  | some value =>
    obtain ⟨attained, bound⟩ := List.max?_eq_some_iff.mp found
    obtain ⟨largest, listed, rfl⟩ := List.mem_map.mp attained
    exact ⟨largest, listed, rfl, fun member present =>
      bound member.value (List.mem_map_of_mem present)⟩

end Lexicon
end WordSwitch
