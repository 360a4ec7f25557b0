import WordSwitch.Proofs.Lexicon.Assertions
import WordSwitch.Proofs.Lexicon.Places

/-!
# Lexicons as they are stored

The entries of a lexicon stand in a row, each with a value of its own, and so do
the labels with theirs.  Two indices tell at which place a word or a label
stands.  What is declared again is replaced at its place, and a label that gets
another value has it written to all entries that carry it.  Every place that is
looked up is there, and what is stored is what the declarations asserted last.
-/

namespace WordSwitch

/-- A lexicon in two rows with an index for each. -/
structure StoredLexicon where
  entries : List Entry
  /-- The places of the words among the entries. -/
  wordPlaces : OrderedMap Bytes Nat
  /-- The labels with their values. -/
  labels : List Enumerator
  /-- The places of the labels. -/
  labelPlaces : OrderedMap String Nat
  fallback : Enumerator
  supply : ValueSupply
deriving DecidableEq, Repr

namespace StoredLexicon

/-- Why something is not done to a stored lexicon. -/
inductive Failure where
  /-- A value is needed and none is left. -/
  | exhausted
  /-- Nothing stands at a place that is looked up. -/
  | noSuchPlace
deriving DecidableEq, Repr

/-! ## What is done to a stored lexicon -/

/-- What stands at a place of a row. -/
def itemAt {α : Type} (row : List α) (place : Nat) : Except Failure α :=
  match row[place]? with
  | some item => .ok item
  | none => .error .noSuchPlace

/-- Replace what stands at a place of a row. -/
def replaceAt
    {α : Type}
    (row : List α)
    (place : Nat)
    (item : α) :
    Except Failure (List α) :=
  if place < row.length then .ok (row.set place item)
  else .error .noSuchPlace

/-- The stored lexicon without words. -/
def empty : StoredLexicon :=
  ⟨[], .empty, [], .empty, Lexicon.undeclaredFallback, .fresh⟩

/-- The entries after a value is written to those that carry a label. -/
def withValue
    (label : String)
    (value : Int)
    (entries : List Entry) :
    List Entry :=
  entries.map fun entry =>
    if entry.label = label then { entry with value := value } else entry

/-- Give a label a value.  If it is listed, the entries that carry it and a
fallback that does follow. -/
def defineLabel
    (stored : StoredLexicon)
    (label : String)
    (value : Int) :
    Except Failure StoredLexicon :=
  match stored.labelPlaces.get? label with
  | some place => do
    let listed ← itemAt stored.labels place
    let labels ← replaceAt stored.labels place { listed with value := value }
    return { stored with
      labels := labels
      entries := withValue label value stored.entries
      fallback :=
        if stored.fallback.label = label then
          { stored.fallback with value := value }
        else stored.fallback }
  | none =>
    return { stored with
      labels := stored.labels ++ [⟨label, value⟩]
      labelPlaces := stored.labelPlaces.assign label stored.labels.length }

/-- The value that an entry gets, and the supply after it. -/
def chooseValue
    (stored : StoredLexicon) :
    Option Int → Except Failure (Int × ValueSupply)
  | some value => .ok (value, stored.supply.observe value)
  | none =>
    match stored.supply.take? with
    | some taken => .ok taken
    | none => .error .exhausted

/-- Put an entry at the place of its word, or last if the word is new. -/
def putEntry
    (stored : StoredLexicon)
    (entry : Entry) :
    Except Failure StoredLexicon :=
  match stored.wordPlaces.get? entry.word with
  | some place => do
    let entries ← replaceAt stored.entries place entry
    return { stored with entries := entries }
  | none =>
    return { stored with
      entries := stored.entries ++ [entry]
      wordPlaces :=
        stored.wordPlaces.assign entry.word stored.entries.length }

/-- Declare a word.  The result is the value it got and what is stored then. -/
def declareWord
    (stored : StoredLexicon)
    (word : Bytes)
    (label : String)
    (value : Option Int) :
    Except Failure (Int × StoredLexicon) := do
  let (chosen, supply) ← stored.chooseValue value
  let defined ← { stored with supply := supply }.defineLabel label chosen
  let changed ← defined.putEntry ⟨word, label, chosen⟩
  return (chosen, changed)

/-- Declare the fallback.  Without a label it keeps the one it has. -/
def declareFallback
    (stored : StoredLexicon)
    (label : Option String)
    (value : Int) :
    Except Failure StoredLexicon := do
  let label := label.getD stored.fallback.label
  let observed := { stored with supply := stored.supply.observe value }
  let defined ← observed.defineLabel label value
  return { defined with fallback := ⟨label, value⟩ }

/-- Follow a declaration. -/
def declare (stored : StoredLexicon) :
    Declaration → Except Failure StoredLexicon
  | .entry word label value =>
    (·.2) <$> stored.declareWord word label value
  | .fallback label value => stored.declareFallback label value

/-- Follow declarations from the stored lexicon without words. -/
def ofDeclarations (declarations : List Declaration) :
    Except Failure StoredLexicon :=
  declarations.foldlM declare empty

/-! ## What is read from a stored lexicon -/

/-- The value of a label. -/
def valueOf (stored : StoredLexicon) (label : String) :
    Except Failure (Option Int) :=
  match stored.labelPlaces.get? label with
  | some place => do
    let listed ← itemAt stored.labels place
    return some listed.value
  | none => return none

/-- The labels with their values, and the fallback last unless its label is
among them. -/
def enumeration (stored : StoredLexicon) : List Enumerator :=
  match stored.labelPlaces.get? stored.fallback.label with
  | some _ => stored.labels
  | none => stored.labels ++ [stored.fallback]

/-! ## Places that are there -/

theorem itemAt_eq_ok
    {α : Type}
    {row : List α}
    {place : Nat}
    {item : α}
    (stands : row[place]? = some item) :
    itemAt row place = .ok item := by
  rw [itemAt, stands]

theorem replaceAt_eq_ok
    {α : Type}
    {row : List α}
    {place : Nat}
    (inside : place < row.length)
    (item : α) :
    replaceAt row place item = .ok (row.set place item) :=
  if_pos inside

/-! ## What a stored lexicon represents -/

/-- A stored lexicon has the words and the labels of a lexicon in their order,
each entry with the value of its label, and finds them by their places. -/
structure Represents (stored : StoredLexicon) (lexicon : Lexicon) : Prop where
  words : stored.entries.map (fun entry => (entry.word, entry.label)) =
    lexicon.words.toList
  values : ∀ entry ∈ stored.entries,
    lexicon.valueOf? entry.label = some entry.value
  wordPlaces : stored.wordPlaces.Indexes lexicon.words.keys
  labels : stored.labels.map (fun member => (member.label, member.value)) =
    lexicon.labels.toList
  labelPlaces : stored.labelPlaces.Indexes lexicon.labels.keys
  fallback : stored.fallback = lexicon.fallback
  supply : stored.supply = lexicon.supply

theorem represents_empty : empty.Represents Lexicon.empty :=
  ⟨rfl, nofun, OrderedMap.indexes_empty, rfl, OrderedMap.indexes_empty, rfl,
    rfl⟩

section

variable
  {stored : StoredLexicon}
  {lexicon : Lexicon}
  (represents : stored.Represents lexicon)

include represents

theorem Represents.length_labels :
    stored.labels.length = lexicon.labels.toList.length := by
  rw [← represents.labels, List.length_map]

theorem Represents.length_entries :
    stored.entries.length = lexicon.words.toList.length := by
  rw [← represents.words, List.length_map]

theorem Represents.valueOf?_isSome_iff (label : String) :
    (lexicon.valueOf? label).isSome = true ↔
      (stored.labelPlaces.get? label).isSome = true := by
  rw [← not_iff_not, Option.not_isSome_iff_eq_none,
    Option.not_isSome_iff_eq_none, represents.labelPlaces.get?_eq_none_iff,
    Lexicon.valueOf?, OrderedMap.get?_eq_none_iff]

/-- A label that is found stands at its place with its value. -/
theorem Represents.exists_label
    {label : String}
    {place : Nat}
    (found : stored.labelPlaces.get? label = some place) :
    ∃ listed, stored.labels[place]? = some listed ∧ listed.label = label ∧
      lexicon.valueOf? label = some listed.value := by
  have stands := (represents.labelPlaces label place).mp found
  rw [OrderedMap.keys, ← represents.labels, List.map_map,
    List.getElem?_map, Option.map_eq_some_iff] at stands
  obtain ⟨listed, atPlace, rfl⟩ := stands
  refine ⟨listed, atPlace, rfl, ?_⟩
  refine (OrderedMap.mem_toList_iff represents.labelPlaces.nodup).mp ?_
  rw [← represents.labels]
  exact List.mem_map.mpr ⟨listed, List.mem_of_getElem? atPlace, rfl⟩

/-- What is written to the entries that carry a label is its value in the
lexicon. -/
theorem Represents.withValue
    (label : String)
    (value : Int) :
    (withValue label value stored.entries).map
        (fun entry => (entry.word, entry.label)) = lexicon.words.toList ∧
      ∀ entry ∈ withValue label value stored.entries,
        (lexicon.defineLabel label value).valueOf? entry.label =
          some entry.value := by
  unfold StoredLexicon.withValue
  constructor
  · rw [← represents.words, List.map_map]
    refine List.map_congr_left fun entry _ => ?_
    rw [Function.comp_apply]
    split <;> rfl
  · intro changed listed
    obtain ⟨entry, member, rfl⟩ := List.mem_map.mp listed
    by_cases carries : entry.label = label
    · rw [if_pos carries, Lexicon.valueOf?_defineLabel, if_pos carries]
    · rw [if_neg carries, Lexicon.valueOf?_defineLabel, if_neg carries]
      exact represents.values entry member

/-- Defining a label finds its place, or makes one, and brings all entries in
step. -/
theorem Represents.defineLabel (label : String) (value : Int) :
    ∃ defined, stored.defineLabel label value = .ok defined ∧
      defined.Represents (lexicon.defineLabel label value) := by
  have known_iff := represents.valueOf?_isSome_iff label
  unfold StoredLexicon.defineLabel
  cases found : stored.labelPlaces.get? label with
  | some place =>
    obtain ⟨listed, stands, rfl, _⟩ := represents.exists_label found
    obtain ⟨inside, assigned, indexes⟩ :=
      represents.labelPlaces.assign_of_place found value
    rw [← represents.length_labels] at inside
    obtain ⟨words, values⟩ := represents.withValue listed.label value
    have known : (lexicon.valueOf? listed.label).isSome = true :=
      known_iff.mpr (by rw [found]; rfl)
    simp only [itemAt_eq_ok stands, replaceAt_eq_ok inside, bind, Except.bind,
      pure, Except.pure]
    refine ⟨_, rfl, words, values, represents.wordPlaces, ?_, indexes, ?_,
      represents.supply⟩
    · rw [List.map_set, represents.labels]
      exact assigned.symm
    · simp only [Lexicon.defineLabel, known, represents.fallback,
        Bool.true_and, beq_iff_eq]
      split
      · next carries => rw [carries]
      · rfl
  | none =>
    obtain ⟨assigned, indexes⟩ :=
      represents.labelPlaces.assign_of_new found value
    rw [← represents.length_labels] at indexes
    have unknown : lexicon.valueOf? label = none := by
      rw [← Option.not_isSome_iff_eq_none, known_iff, found]
      exact Bool.false_ne_true
    refine ⟨_, rfl, represents.words, ?_, represents.wordPlaces, ?_, indexes,
      ?_, represents.supply⟩
    · intro entry listed
      have value_eq := represents.values entry listed
      have other : entry.label ≠ label := by
        rintro rfl
        cases unknown.symm.trans value_eq
      rw [Lexicon.valueOf?_defineLabel, if_neg other]
      exact value_eq
    · rw [List.map_append, represents.labels]
      exact assigned.symm
    · simp [Lexicon.defineLabel, unknown, represents.fallback]

/-- An entry with the value of its label goes to the place of its word, or
behind all others. -/
theorem Represents.putEntry
    (entry : Entry)
    (known : lexicon.valueOf? entry.label = some entry.value) :
    ∃ changed, stored.putEntry entry = .ok changed ∧
      changed.Represents { lexicon with
        words := lexicon.words.assign entry.word entry.label } := by
  unfold StoredLexicon.putEntry
  cases found : stored.wordPlaces.get? entry.word with
  | some place =>
    obtain ⟨inside, assigned, indexes⟩ :=
      represents.wordPlaces.assign_of_place found entry.label
    rw [← represents.length_entries] at inside
    simp only [replaceAt_eq_ok inside, bind, Except.bind, pure, Except.pure]
    refine ⟨_, rfl, ?_, ?_, indexes, represents.labels,
      represents.labelPlaces, represents.fallback, represents.supply⟩
    · rw [List.map_set, represents.words]
      exact assigned.symm
    · intro other listed
      rcases List.mem_or_eq_of_mem_set listed with kept | rfl
      · exact represents.values other kept
      · exact known
  | none =>
    obtain ⟨assigned, indexes⟩ :=
      represents.wordPlaces.assign_of_new found entry.label
    rw [← represents.length_entries] at indexes
    refine ⟨_, rfl, ?_, ?_, indexes, represents.labels,
      represents.labelPlaces, represents.fallback, represents.supply⟩
    · rw [List.map_append, represents.words]
      exact assigned.symm
    · intro other listed
      rcases List.mem_append.mp listed with kept | last
      · exact represents.values other kept
      · obtain rfl := List.mem_singleton.mp last
        exact known

theorem Represents.withSupply (supply : ValueSupply) :
    { stored with supply := supply }.Represents
      { lexicon with supply := supply } :=
  ⟨represents.words, represents.values, represents.wordPlaces,
    represents.labels, represents.labelPlaces, represents.fallback, rfl⟩

theorem Represents.chooseValue (value : Option Int) :
    stored.chooseValue value =
      match lexicon.chooseValue? value with
      | some chosen => .ok chosen
      | none => .error .exhausted := by
  cases value with
  | some value =>
    rw [StoredLexicon.chooseValue, represents.supply]
    rfl
  | none =>
    rw [StoredLexicon.chooseValue, represents.supply]
    rfl

theorem Represents.declareWord
    (word : Bytes)
    (label : String)
    (value : Option Int) :
    match lexicon.declareWord? word label value with
    | none => stored.declareWord word label value = .error .exhausted
    | some (chosen, next) =>
      ∃ changed, stored.declareWord word label value = .ok (chosen, changed) ∧
        changed.Represents next := by
  unfold Lexicon.declareWord? StoredLexicon.declareWord
  rw [represents.chooseValue]
  cases lexicon.chooseValue? value with
  | none => rfl
  | some choice =>
    obtain ⟨chosen, supply⟩ := choice
    obtain ⟨defined, defines, definedRepresents⟩ :=
      (represents.withSupply supply).defineLabel label chosen
    have known : (({ lexicon with supply := supply } : Lexicon).defineLabel
        label chosen).valueOf? label = some chosen := by
      rw [Lexicon.valueOf?_defineLabel, if_pos rfl]
    obtain ⟨changed, puts, changedRepresents⟩ :=
      definedRepresents.putEntry ⟨word, label, chosen⟩ known
    refine ⟨changed, ?_, changedRepresents⟩
    simp only [bind, Except.bind, defines, puts, pure, Except.pure]

theorem Represents.declareFallback
    (label : Option String)
    (value : Int) :
    ∃ changed, stored.declareFallback label value = .ok changed ∧
      changed.Represents (lexicon.declareFallback label value) := by
  unfold StoredLexicon.declareFallback
  obtain ⟨defined, defines, definedRepresents⟩ :=
    (represents.withSupply (stored.supply.observe value)).defineLabel
      (label.getD stored.fallback.label) value
  simp only [defines, bind, Except.bind, pure, Except.pure]
  rw [represents.fallback, represents.supply] at *
  exact ⟨_, rfl, definedRepresents.words, definedRepresents.values,
    definedRepresents.wordPlaces, definedRepresents.labels,
    definedRepresents.labelPlaces, rfl, definedRepresents.supply⟩

/-- Following a declaration fails only if a value is needed and none is left,
and otherwise leaves behind what it leaves of the lexicon. -/
theorem Represents.declare (declaration : Declaration) :
    match lexicon.declare? declaration with
    | none => stored.declare declaration = .error .exhausted
    | some next => ∃ changed, stored.declare declaration = .ok changed ∧
        changed.Represents next := by
  cases declaration with
  | entry word label value =>
    have declares := represents.declareWord word label value
    simp only [Lexicon.declare?, StoredLexicon.declare]
    cases outcome : lexicon.declareWord? word label value with
    | none =>
      rw [outcome] at declares
      rw [Option.map_none, declares]
      rfl
    | some result =>
      rw [outcome] at declares
      obtain ⟨changed, declared, changedRepresents⟩ := declares
      rw [Option.map_some, declared]
      exact ⟨changed, rfl, changedRepresents⟩
  | fallback label value => exact represents.declareFallback label value

/-! ## What is read -/

theorem Represents.valueOf (label : String) :
    stored.valueOf label = .ok (lexicon.valueOf? label) := by
  unfold StoredLexicon.valueOf
  cases found : stored.labelPlaces.get? label with
  | some place =>
    obtain ⟨listed, stands, _, value_eq⟩ := represents.exists_label found
    simp only [itemAt_eq_ok stands, bind, Except.bind, pure, Except.pure,
      value_eq]
  | none =>
    have unknown : lexicon.valueOf? label = none := by
      rw [← Option.not_isSome_iff_eq_none, represents.valueOf?_isSome_iff,
        found]
      nofun
    rw [unknown]
    rfl

theorem Represents.entries : stored.entries = lexicon.entries := by
  rw [Lexicon.entries, ← represents.words, List.map_map]
  conv_lhs => rw [← List.map_id stored.entries]
  refine List.map_congr_left fun entry listed => ?_
  simp [represents.values entry listed]

theorem Represents.enumeration :
    stored.enumeration = lexicon.enumeration := by
  have labels : stored.labels = lexicon.labels.toList.map fun pair =>
      ⟨pair.1, pair.2⟩ := by
    rw [← represents.labels, List.map_map]
    exact (List.map_id _).symm
  have known_iff := represents.valueOf?_isSome_iff lexicon.fallback.label
  unfold StoredLexicon.enumeration Lexicon.enumeration
  rw [labels, represents.fallback]
  cases found : stored.labelPlaces.get? lexicon.fallback.label <;>
    cases known : lexicon.valueOf? lexicon.fallback.label <;>
    simp [found, known] at known_iff ⊢

end

/-- Following declarations fails only if a value is needed and none is left, and
otherwise leaves behind the stored form of their lexicon. -/
theorem represents_ofDeclarations (declarations : List Declaration) :
    match Lexicon.ofDeclarations? declarations with
    | none => ofDeclarations declarations = .error .exhausted
    | some lexicon => ∃ stored, ofDeclarations declarations = .ok stored ∧
        stored.Represents lexicon := by
  unfold Lexicon.ofDeclarations? ofDeclarations
  generalize stored_eq : empty = stored
  generalize lexicon_eq : Lexicon.empty = lexicon
  have represents : stored.Represents lexicon :=
    stored_eq ▸ lexicon_eq ▸ represents_empty
  clear stored_eq lexicon_eq
  induction declarations generalizing stored lexicon with
  | nil => exact ⟨stored, rfl, represents⟩
  | cons declaration rest hypothesis =>
    have declares := represents.declare declaration
    rw [List.foldlM_cons, List.foldlM_cons]
    cases outcome : lexicon.declare? declaration with
    | none =>
      rw [outcome] at declares
      rw [declares]
      rfl
    | some next =>
      rw [outcome] at declares
      obtain ⟨changed, declared, changedRepresents⟩ := declares
      rw [declared]
      exact hypothesis changed next changedRepresents

/-- Declarations that are followed are stored, whatever is looked up for them.
What is stored lists each word once, in order of first mention, with the label
last asserted of it and the value last asserted of that, and each label once,
likewise.  A declared fallback has the label last asserted of it and the value of
that. -/
theorem reflects_declarations
    {declarations : List Declaration}
    (followed : ofDeclarations declarations ≠ .error .exhausted) :
    let assertions := Declaration.assertions declarations
    ∃ stored, ofDeclarations declarations = .ok stored ∧
      stored.entries = Assertions.entries assertions ∧
      stored.entries.map Entry.word = Assertions.words assertions ∧
      (∀ label, stored.valueOf label =
        .ok (Assertions.valueOf? assertions label)) ∧
      stored.enumeration = Assertions.enumeration assertions ∧
      (Assertions.labelled assertions).map Enumerator.label =
        Assertions.labels assertions ∧
      (declarations.any Declaration.isFallback = true →
        stored.fallback.label = Assertions.fallbackLabel assertions ∧
        stored.valueOf stored.fallback.label =
          .ok (some stored.fallback.value)) := by
  intro assertions
  have outcome := represents_ofDeclarations declarations
  cases reached : Lexicon.ofDeclarations? declarations with
  | none =>
    rw [reached] at outcome
    exact absurd outcome followed
  | some lexicon =>
    rw [reached] at outcome
    obtain ⟨stored, stores, represents⟩ := outcome
    have holds := Lexicon.holds_assertions reached
    have phase := (Lexicon.fallbackPhase reached).1
    have once : lexicon.AssignedOnce :=
      ⟨represents.wordPlaces.nodup, represents.labelPlaces.nodup⟩
    have entries_eq := represents.entries.trans (holds.entries_eq once)
    refine ⟨stored, stores, entries_eq, ?_, ?_, ?_, ?_, ?_⟩
    · rw [represents.entries, Lexicon.map_word_entries, holds.words]
    · intro label
      rw [represents.valueOf, holds.valueOf]
    · exact represents.enumeration.trans (holds.enumeration_eq once phase)
    · rw [← holds.map_labels once, List.map_map, ← holds.labels]
      rfl
    · intro declared
      rw [represents.valueOf, represents.fallback]
      exact ⟨holds.fallbackLabel,
        congrArg Except.ok (phase.valueOf?_fallback declared)⟩

/-- A word that is relabelled, a label shared with a fallback that is declared
twice, once without its label. -/
def relabelled : List Declaration :=
  [.entry [97] "First" (some 3), .entry [98] "First" none,
    .fallback (some "Other") 7, .entry [97] "Second" none, .fallback none 2,
    .entry [99] "Other" (some 9)]

theorem reflects_declarations_relabelled :
    ∃ stored, ofDeclarations relabelled = .ok stored ∧
      stored.entries =
        [⟨[97], "Second", 8⟩, ⟨[98], "First", 4⟩, ⟨[99], "Other", 9⟩] ∧
      stored.enumeration = [⟨"First", 4⟩, ⟨"Other", 9⟩, ⟨"Second", 8⟩] ∧
      stored.fallback.label = "Other" ∧
      stored.valueOf stored.fallback.label =
        .ok (some stored.fallback.value) := by
  obtain ⟨stored, stores, entries_eq, _, _, enumeration_eq, _, fallback_eq⟩ :=
    reflects_declarations
      (show ofDeclarations relabelled ≠ .error .exhausted by decide)
  obtain ⟨label_eq, value_eq⟩ := fallback_eq rfl
  refine ⟨stored, stores, ?_, ?_, ?_, value_eq⟩
  · rw [entries_eq]
    decide
  · rw [enumeration_eq]
    decide
  · rw [label_eq]
    decide

end StoredLexicon

end WordSwitch
