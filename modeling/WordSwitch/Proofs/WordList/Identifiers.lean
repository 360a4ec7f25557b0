import WordSwitch.Proofs.Lexicon.Assertions
import WordSwitch.Proofs.WordList.Grammar

/-!
# Labels that are read from word lists

A lexicon that is read from a word list is what its declarations make of the
lexicon without words.  Every line declares identifiers as labels, and so is the
label of a fallback that no line declares, so every label of the lexicon is an
identifier.
-/

namespace WordSwitch

/-- The label of a declaration is an identifier, unless it leaves the label
open. -/
def Declaration.HasIdentifier : Declaration → Prop
  | .entry _ label _ => Label.isIdentifier label = true
  | .fallback label _ => ∀ name ∈ label, Label.isIdentifier name = true

namespace Line

/-- What a line declares, if it is neither blank nor refused. -/
def declared? (line : Bytes) : Option Declaration :=
  match parse line with
  | .ok declaration => declaration
  | .error _ => none

theorem declared?_eq_some_iff {line : Bytes} {declaration : Declaration} :
    declared? line = some declaration ↔
      parse line = .ok (some declaration) := by
  unfold declared?
  cases parse line <;> simp

theorem DeclaresLabel.isIdentifier
    {part : Option Bytes}
    {label : Option String}
    (declares : DeclaresLabel part label) :
    ∀ name ∈ label, Label.isIdentifier name = true := by
  intro name declared
  cases declares with
  | absent => cases declared
  | present holds identifier =>
    cases declared
    exact identifier

/-- A line declares an identifier. -/
theorem Declares.hasIdentifier
    {line : Bytes}
    {declaration : Declaration}
    (declares : Declares line declaration) :
    declaration.HasIdentifier := by
  obtain ⟨parts, _, declares⟩ := declares
  cases declares with
  | labelled declaresLabel => exact declaresLabel.isIdentifier _ rfl
  | unlabelled _ _ identifier => exact identifier
  | fallback declaresLabel => exact declaresLabel.isIdentifier

end Line

namespace Lexicon

/-! ## Reading follows declarations -/

/-- A lexicon that is read from lines follows what they declare, in order. -/
theorem foldlM_of_readLines
    {number : Nat}
    {lines : List Bytes}
    {lexicon result : Lexicon}
    (read : lexicon.readLines number lines = .ok result) :
    (lines.filterMap Line.declared?).foldlM declare? lexicon = some result := by
  induction lines generalizing number lexicon with
  | nil =>
    cases read
    rfl
  | cons line rest hypothesis =>
    rw [readLines, readLine] at read
    rw [List.filterMap_cons]
    rcases parsed : Line.parse line with problem | (_ | declaration)
    · rw [parsed] at read
      cases read
    · rw [parsed] at read
      rw [Line.declared?, parsed]
      exact hypothesis read
    · simp only [parsed] at read
      rw [Line.declared?, parsed]
      dsimp only
      rw [List.foldlM_cons]
      cases declared : lexicon.declare? declaration with
      | none => rw [declared] at read; cases read
      | some next =>
        rw [declared] at read
        exact hypothesis read

/-- A lexicon that is read from a word list follows what its lines declare, in
order. -/
theorem ofDeclarations?_of_ofSource
    {source : Source}
    {lexicon : Lexicon}
    (read : ofSource source = .ok lexicon) :
    ofDeclarations? (source.lines.filterMap Line.declared?) =
      some lexicon := by
  unfold ofSource at read
  cases outcome : readLines 1 empty source.lines with
  | error error => rw [outcome] at read; cases read
  | ok result =>
    rw [outcome] at read
    cases failure : source.failure with
    | some failure => rw [failure] at read; cases read
    | none =>
      rw [failure] at read
      cases read
      exact foldlM_of_readLines outcome

/-- A lexicon that is read from a word list lists no word and no label twice. -/
theorem assignedOnce_of_ofSource
    {source : Source}
    {lexicon : Lexicon}
    (read : ofSource source = .ok lexicon) :
    lexicon.AssignedOnce := by
  rw [← after_of_ofDeclarations? (ofDeclarations?_of_ofSource read)]
  exact assignedOnce_after _

/-- A lexicon that is read from a word list follows declarations that stand on
lines. -/
theorem exists_parsed_of_ofSource
    {source : Source}
    {lexicon : Lexicon}
    (read : ofSource source = .ok lexicon) :
    ∃ declarations : List Declaration,
      ofDeclarations? declarations = some lexicon ∧
        ∀ declaration ∈ declarations,
          ∃ line, Line.parse line = .ok (some declaration) := by
  refine ⟨_, ofDeclarations?_of_ofSource read, ?_⟩
  intro declaration listed
  obtain ⟨line, _, declares⟩ := List.mem_filterMap.mp listed
  exact ⟨line, Line.declared?_eq_some_iff.mp declares⟩

/-- A lexicon that is read from a word list follows declarations of
identifiers. -/
theorem exists_declarations_of_ofSource
    {source : Source}
    {lexicon : Lexicon}
    (read : ofSource source = .ok lexicon) :
    ∃ declarations : List Declaration,
      ofDeclarations? declarations = some lexicon ∧
        ∀ declaration ∈ declarations, declaration.HasIdentifier := by
  obtain ⟨declarations, followed, written⟩ := exists_parsed_of_ofSource read
  refine ⟨declarations, followed, ?_⟩
  intro declaration listed
  obtain ⟨line, parsed⟩ := written declaration listed
  exact (Line.parse_eq_ok_some_iff.mp parsed).hasIdentifier

/-! ## Declarations of identifiers -/

/-- All labels that words and the fallback carry are identifiers. -/
structure Identified (lexicon : Lexicon) : Prop where
  words : ∀ pair ∈ lexicon.words.toList, Label.isIdentifier pair.2 = true
  fallback : Label.isIdentifier lexicon.fallback.label = true

theorem mem_assignIn
    {κ ν : Type}
    [DecidableEq κ]
    {key : κ}
    {value : ν}
    {pairs : List (κ × ν)}
    {pair : κ × ν}
    (member : pair ∈ assignIn key value pairs) :
    pair = (key, value) ∨ pair ∈ pairs := by
  induction pairs with
  | nil => exact .inl (List.mem_singleton.mp member)
  | cons first rest hypothesis =>
    unfold assignIn at member
    split at member
    · rcases List.mem_cons.mp member with assigned | old
      · exact .inl assigned
      · exact .inr (List.mem_cons_of_mem first old)
    · rcases List.mem_cons.mp member with same | later
      · exact .inr (same ▸ List.mem_cons_self)
      · exact (hypothesis later).imp_right (List.mem_cons_of_mem first)

/-- A lexicon that follows declarations of identifiers has no other labels. -/
theorem identified_of_ofDeclarations?
    {declarations : List Declaration}
    {lexicon : Lexicon}
    (reached : ofDeclarations? declarations = some lexicon)
    (identified : ∀ declaration ∈ declarations, declaration.HasIdentifier) :
    lexicon.Identified := by
  revert identified
  refine induction_followed
    (motive := fun history lexicon =>
      (∀ declaration ∈ history, declaration.HasIdentifier) →
        lexicon.Identified)
    ?_ ?_ ?_ reached
  · exact fun _ => ⟨by simp [empty, OrderedMap.empty], by decide⟩
  · intro earlier before word label value chosen next hypothesis declared
      identified
    rw [List.forall_mem_append] at identified
    have last := identified.2 _ List.mem_cons_self
    obtain ⟨words, fallback⟩ := hypothesis identified.1
    obtain ⟨supply, _, rfl⟩ := eq_of_declareWord? declared
    refine ⟨?_, ?_⟩
    · intro pair member
      rcases mem_assignIn member with rfl | old
      · exact last
      · exact words pair old
    · exact (fallback_label_defineLabel before label chosen) ▸ fallback
  · intro earlier before label value hypothesis identified
    rw [List.forall_mem_append] at identified
    have last := identified.2 _ List.mem_cons_self
    obtain ⟨words, fallback⟩ := hypothesis identified.1
    refine ⟨words, ?_⟩
    cases label with
    | none => exact fallback
    | some name => exact last name rfl

end Lexicon
end WordSwitch
