import WordSwitch.Proofs.Program.Correctness
import WordSwitch.Proofs.WordList.Enumeration

/-!
# The declarations for a word list

If a configuration passes the checks before and after a word list is read, code
for it can be written down.  The declarations declare one enumeration, with the
members of the lexicon and the counter after them.
-/

namespace WordSwitch

open Source

namespace CodeConfig

/-- The text in front of the declarations that are read. -/
def openingText (config : CodeConfig) : String :=
  Lines.text (Program.openingLines config)

/-- The conditions that end with the declarations: the include guard if they
are a file of their own. -/
def closedConditions (config : CodeConfig) : List Bool :=
  if config.isSplit then [true] else []

/-- Members are those listed and after them the counter, if there is one, with
the value above the largest. -/
def Counts (config : CodeConfig) (listed members : List Enumerator) : Prop :=
  match config.counterName with
  | none => members = listed
  | some name =>
    ∃ largest ∈ listed, (∀ member ∈ listed, member.value ≤ largest.value) ∧
      members = listed ++ [⟨name, largest.value + 1⟩]

/-- A counter that passes the check has a name and a value of its own. -/
theorem counter_of_checkAgainst
    {config : CodeConfig}
    {lexicon : Lexicon}
    (checked : config.checkAgainst lexicon = .ok ())
    {name : String}
    (counts : config.counterName = some name) :
    name ∉ lexicon.enumeration.map Enumerator.label ∧
      lexicon.largestValue ≠ maxValue := by
  unfold checkAgainst at checked
  rw [counts] at checked
  dsimp only at checked
  split at checked
  · cases checked
  · next fresh =>
    split at checked
    · cases checked
    · next below =>
      refine ⟨?_, by simpa using below⟩
      rw [List.mem_map]
      rintro ⟨member, listed, rfl⟩
      exact fresh (List.any_eq_true.mpr ⟨member, listed, by simp⟩)

end CodeConfig

namespace Program

/-- The text after the include guard declares one enumeration. -/
theorem readEnumerations_declaredText
    {config : CodeConfig}
    (named : config.IsNamed)
    {members : List Enumerator}
    (labels : ∀ member ∈ members, IsName member.label)
    (environment : Environment) :
    readEnumerations environment config.closedConditions
        (declaredText config members) =
      some [⟨config.enumName, config.enumClass, members⟩] := by
  have yields := yields_declaredLines named labels areOwn_nil environment
  have parsed := enumerations?_declarationsPhrase config
    environment.isCplusplus members
  unfold CodeConfig.closedConditions declaredText
  split
  · exact yields.readEnumerations_guarded parsed
  · rw [List.append_nil]
    exact yields.readEnumerations parsed

end Program

namespace Lexicon

variable
  {source : WordSwitch.Source}
  {lexicon : Lexicon}
  {code : CodeConfig}

/-- There is a value above the largest if the counter passes the check. -/
theorem largestValue_lt
    (read : ofSource source = .ok lexicon)
    (below : lexicon.largestValue ≠ maxValue) :
    lexicon.largestValue < maxValue := by
  obtain ⟨largest, listed, value_eq, _⟩ :=
    (assignedOnce_of_ofSource read).exists_largest
  have bound := (isValid_of_mem_enumeration read largest listed).largest
  rw [value_eq] at bound
  omega

/-- The members with the counter are distinct identifiers with values that 64
bits hold. -/
theorem members_with_counter
    (read : ofSource source = .ok lexicon)
    (checked : code.check = .ok ())
    (countable : code.checkAgainst lexicon = .ok ())
    {members : List Enumerator}
    (members_eq : members =
      lexicon.enumeration ++ Program.counters code lexicon) :
    code.Counts lexicon.enumeration members ∧
      (∀ member ∈ members, member.IsValid) ∧
      (members.map Enumerator.label).Nodup := by
  have once := assignedOnce_of_ofSource read
  have valid := isValid_of_mem_enumeration read
  have nodup := once.nodup_enumeration
  unfold Program.counters at members_eq
  unfold CodeConfig.Counts
  cases counts : code.counterName with
  | none =>
    rw [counts, Option.toList_none, List.map_nil, List.append_nil] at members_eq
    subst members_eq
    exact ⟨rfl, valid, nodup⟩
  | some name =>
    rw [counts, Option.toList_some, List.map_singleton] at members_eq
    subst members_eq
    obtain ⟨largest, listed, value_eq, bound⟩ := once.exists_largest
    obtain ⟨fresh, below⟩ := CodeConfig.counter_of_checkAgainst countable counts
    have above := largestValue_lt read below
    have least := (valid largest listed).least
    have counter : Enumerator.IsValid ⟨name, lexicon.largestValue + 1⟩ := by
      refine ⟨CodeConfig.isIdentifier_counterName checked counts, ?_, above⟩
      dsimp only
      omega
    refine ⟨⟨largest, listed, bound, by rw [value_eq]⟩, ?_, ?_⟩
    · rw [List.forall_mem_append]
      exact ⟨valid, by simpa using counter⟩
    · rw [List.map_append, List.map_singleton, List.nodup_append]
      refine ⟨nodup, List.nodup_singleton _, ?_⟩
      rintro label inListed other isCounter rfl
      have label_eq : label = name := List.mem_singleton.mp isCounter
      exact fresh (label_eq ▸ inListed)

/-- Code for a lexicon that is read from a word list can be written down, with
any recognizer, and its declarations hold the members and the counter. -/
theorem exists_units
    (read : ofSource source = .ok lexicon)
    (checked : code.check = .ok ())
    (countable : code.checkAgainst lexicon = .ok ())
    (recognizer : Recognizer)
    (environment : Environment) :
    let members := lexicon.enumeration ++ Program.counters code lexicon
    ∃ units, Program.units? code recognizer lexicon = some units ∧
      units.declarations =
        code.openingText ++ Program.declaredText code members ∧
      readEnumerations environment code.closedConditions
          (Program.declaredText code members) =
        some [⟨code.enumName, code.enumClass, members⟩] := by
  have above : code.counterName.isSome = true →
      lexicon.largestValue < maxValue := by
    intro counts
    obtain ⟨name, counts⟩ := Option.isSome_iff_exists.mp counts
    exact largestValue_lt read
      (CodeConfig.counter_of_checkAgainst countable counts).2
  obtain ⟨units, emitted, declarations_eq⟩ :=
    Program.declarations_of_units? above recognizer
  have valid := (members_with_counter read checked countable rfl).2.1
  have labels := fun member listed =>
    isName_of_isIdentifier (valid member listed).identifier
  exact ⟨units, emitted, declarations_eq,
    Program.readEnumerations_declaredText (CodeConfig.isNamed_of_check checked)
      labels environment⟩

/-- The declarations for a word list, with any recognizer, declare one
enumeration if the configuration passes its checks: the members of the lexicon,
in order, and the counter, all of them distinct identifiers with values that 64
bits hold. -/
theorem declarations_ofSource
    (read : ofSource source = .ok lexicon)
    (checked : code.check = .ok ())
    (countable : code.checkAgainst lexicon = .ok ())
    (recognizer : Recognizer)
    (environment : Environment) :
    ∃ units body members,
      Program.units? code recognizer lexicon = some units ∧
      units.declarations = code.openingText ++ body ∧
      readEnumerations environment code.closedConditions body =
        some [⟨code.enumName, code.enumClass, members⟩] ∧
      code.Counts lexicon.enumeration members ∧
      (∀ member ∈ members, member.IsValid) ∧
      (members.map Enumerator.label).Nodup := by
  obtain ⟨units, emitted, declarations_eq, declares⟩ :=
    exists_units read checked countable recognizer environment
  exact ⟨units, _, _, emitted, declarations_eq, declares,
    members_with_counter read checked countable rfl⟩

/-- A word list in which no word keeps the label of the largest value. -/
def staleLabelList : WordSwitch.Source :=
  .ofBytes (Bytes.ofString
    "Large ~ a = 9\nSmall ~ a = -3\nb-c = 8\nOther ~ = 4\n")

theorem declarations_ofSource_staleLabel :
    ∃ lexicon units body,
      ofSource staleLabelList = .ok lexicon ∧
      Program.units? methodCode ⟨false, 1, [], lexicon.fallback⟩ lexicon =
        some units ∧
      units.declarations = methodCode.openingText ++ body ∧
      readEnumerations ⟨.big, true, true⟩ [true] body =
        some [⟨"Method", true,
          [⟨"Large", 9⟩, ⟨"Small", -3⟩, ⟨"b_c", 8⟩, ⟨"Other", 4⟩,
            ⟨"Count", 10⟩]⟩] := by
  have read : ofSource staleLabelList = .ok
      ⟨⟨[([97], "Small"), ([98, 45, 99], "b_c")]⟩,
        ⟨[("Large", 9), ("Small", -3), ("b_c", 8), ("Other", 4)]⟩,
        ⟨"Other", 4⟩, ⟨some 10⟩⟩ := by
    rw [staleLabelList, Bytes.ofString_eq]
    rfl
  have checked : methodCode.check = .ok () := by decide
  obtain ⟨units, body, members, emitted, declarations_eq, declares, counts,
    _, _⟩ := declarations_ofSource read checked (by decide)
      ⟨false, 1, [], ⟨"Other", 4⟩⟩ ⟨.big, true, true⟩
  obtain ⟨largest, listed, bound, rfl⟩ := counts
  have value_eq : largest.value = 9 := by
    have least := bound ⟨"Large", 9⟩ List.mem_cons_self
    have among : ∀ member ∈ [(⟨"Large", 9⟩ : Enumerator), ⟨"Small", -3⟩,
        ⟨"b_c", 8⟩, ⟨"Other", 4⟩], member.value ≤ 9 := by decide
    exact Int.le_antisymm (among largest listed) least
  rw [value_eq] at declares
  exact ⟨_, units, body, read, emitted, declarations_eq, declares⟩

end Lexicon
end WordSwitch
