import Mathlib.Data.List.Induction
import WordSwitch.Lexicon.Basic

/-!
# Histories of a lexicon

A lexicon is what a history of declarations makes of the lexicon without
words.  A declaration that needs a value from a dry supply fails and changes
nothing, so a lexicon is also what the declarations that were followed make of
it.  Properties of every lexicon are proved along its history, one declaration
at a time.
-/

namespace WordSwitch
namespace Lexicon

/-- Follow a declaration, or keep the lexicon if that fails. -/
def declare (lexicon : Lexicon) (declaration : Declaration) : Lexicon :=
  (lexicon.declare? declaration).getD lexicon

/-- The lexicon after a history of declarations, some of which may fail. -/
def after (history : List Declaration) : Lexicon :=
  history.foldl declare empty

/-- The declarations of a history that do not fail when their turn comes. -/
def followedFrom : Lexicon → List Declaration → List Declaration
  | _, [] => []
  | lexicon, declaration :: later =>
    let rest := followedFrom (lexicon.declare declaration) later
    if (lexicon.declare? declaration).isSome then declaration :: rest else rest

/-- The declarations of a history that are followed. -/
def followed (history : List Declaration) : List Declaration :=
  followedFrom empty history

theorem foldlM_followedFrom
    (lexicon : Lexicon)
    (history : List Declaration) :
    (followedFrom lexicon history).foldlM declare? lexicon =
      some (history.foldl declare lexicon) := by
  induction history generalizing lexicon with
  | nil => rfl
  | cons declaration later hypothesis =>
    have continued := hypothesis (lexicon.declare declaration)
    cases outcome : lexicon.declare? declaration with
    | none =>
      have unchanged : lexicon.declare declaration = lexicon := by
        simp [declare, outcome]
      rw [unchanged] at continued
      simpa [followedFrom, outcome, unchanged] using continued
    | some next =>
      have advanced : lexicon.declare declaration = next := by
        simp [declare, outcome]
      rw [advanced] at continued
      simpa [followedFrom, outcome, advanced] using continued

/-- The declarations that are followed lead to the same lexicon, and none of
them fails. -/
theorem ofDeclarations?_followed (history : List Declaration) :
    ofDeclarations? (followed history) = some (after history) :=
  foldlM_followedFrom empty history

theorem ofDeclarations?_append_singleton
    (earlier : List Declaration)
    (declaration : Declaration) :
    ofDeclarations? (earlier ++ [declaration]) =
      (ofDeclarations? earlier).bind (declare? · declaration) := by
  simp only [ofDeclarations?, List.foldlM_append, List.foldlM_cons,
    List.foldlM_nil, bind_pure]
  rfl

/-- What holds of the lexicon without words and is kept by every declaration
that is followed holds along every history.  The property may speak of the
declarations so far. -/
theorem induction_followed
    {motive : List Declaration → Lexicon → Prop}
    (atStart : motive [] empty)
    (atWord : ∀ earlier lexicon word label value chosen next,
      motive earlier lexicon →
      lexicon.declareWord? word label value = some (chosen, next) →
      motive (earlier ++ [.entry word label value]) next)
    (atFallback : ∀ earlier lexicon label value,
      motive earlier lexicon →
      motive (earlier ++ [.fallback label value])
        (lexicon.declareFallback label value))
    {declarations : List Declaration}
    {lexicon : Lexicon}
    (reached : ofDeclarations? declarations = some lexicon) :
    motive declarations lexicon := by
  induction declarations using List.reverseRecOn generalizing lexicon with
  | nil =>
    have equal : empty = lexicon := Option.some.inj reached
    exact equal ▸ atStart
  | append_singleton earlier declaration hypothesis =>
    rw [ofDeclarations?_append_singleton, Option.bind_eq_some_iff] at reached
    obtain ⟨before, reachedBefore, step⟩ := reached
    have holds := hypothesis reachedBefore
    cases declaration with
    | entry word label value =>
      obtain ⟨⟨chosen, next⟩, declared, equal⟩ :=
        Option.map_eq_some_iff.mp step
      exact equal ▸ atWord earlier before word label value chosen next holds
        declared
    | fallback label value =>
      have equal : before.declareFallback label value = lexicon :=
        Option.some.inj step
      exact equal ▸ atFallback earlier before label value holds

/-- What holds of the lexicon without words and is kept by every declaration
holds after every history. -/
theorem induction_after
    {motive : Lexicon → Prop}
    (atStart : motive empty)
    (atWord : ∀ lexicon word label value chosen next,
      motive lexicon →
      lexicon.declareWord? word label value = some (chosen, next) →
      motive next)
    (atFallback : ∀ lexicon label value,
      motive lexicon → motive (lexicon.declareFallback label value))
    (history : List Declaration) :
    motive (after history) := by
  have reached := ofDeclarations?_followed history
  refine induction_followed (motive := fun _ lexicon => motive lexicon)
    atStart ?_ ?_ reached
  · intro earlier lexicon word label value chosen next holds declared
    exact atWord lexicon word label value chosen next holds declared
  · intro earlier lexicon label value holds
    exact atFallback lexicon label value holds

/-- Declarations that are all followed are a history. -/
theorem after_of_ofDeclarations?
    {declarations : List Declaration}
    {lexicon : Lexicon}
    (reached : ofDeclarations? declarations = some lexicon) :
    after declarations = lexicon := by
  have step : ∀ earlier declaration,
      after (earlier ++ [declaration]) =
        (after earlier).declare declaration := by
    intro earlier declaration
    rw [after, List.foldl_append]
    rfl
  refine induction_followed
    (motive := fun declarations lexicon => after declarations = lexicon)
    rfl ?_ ?_ reached
  · intro earlier before word label value chosen next equal declared
    rw [step, equal, declare, declare?, declared]
    rfl
  · intro earlier before label value equal
    rw [step, equal]
    rfl

end Lexicon
end WordSwitch
