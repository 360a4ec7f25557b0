import WordSwitch.Recognizer.Basic

/-!
# When a recognizer is built

A recognizer is built exactly if its width can be read and, when case is
ignored, no two words differ only in case.  What is built is then determined.
-/

namespace WordSwitch
namespace Lexicon

theorem check_eq_ok_iff {config : RecognizerConfig} :
    config.check = .ok () ↔
      config.maxChunkWidth ∈ Chunk.readableWidths := by
  unfold RecognizerConfig.check
  split
  · next readable =>
    exact ⟨fun _ => List.contains_iff_mem.mp readable, fun _ => rfl⟩
  · next unreadable =>
    constructor
    · intro impossible
      cases impossible
    · intro member
      exact absurd (List.contains_iff_mem.mpr member) unreadable

theorem checkCollisions_eq_ok_iff
    {lexicon : Lexicon}
    {config : RecognizerConfig} :
    lexicon.checkCollisions config = .ok () ↔
      (config.ignoreCase = true → lexicon.collisions = []) := by
  unfold checkCollisions
  cases config.ignoreCase with
  | false => simp
  | true =>
    cases lexicon.collisions with
    | nil => simp
    | cons pair rest => simp

theorem checkCollisions_eq_error_iff
    {lexicon : Lexicon}
    {config : RecognizerConfig}
    {first second : Bytes} :
    lexicon.checkCollisions config = .error (.caseCollision first second) ↔
      config.ignoreCase = true ∧
      ∃ pair, lexicon.collisions.head? = some pair ∧
        pair.1.word = first ∧ pair.2.word = second := by
  unfold checkCollisions
  cases config.ignoreCase with
  | false => simp
  | true =>
    cases lexicon.collisions with
    | nil => simp
    | cons pair rest => simp

/-- What it takes to build a recognizer, and what is built. -/
theorem recognizer_eq_ok_iff
    {lexicon : Lexicon}
    {config : RecognizerConfig}
    {recognizer : Recognizer} :
    lexicon.recognizer config = .ok recognizer ↔
      config.maxChunkWidth ∈ Chunk.readableWidths ∧
      (config.ignoreCase = true → lexicon.collisions = []) ∧
      recognizer = ⟨config.ignoreCase, config.widthLimit,
        lexicon.lengthTries config, lexicon.fallback⟩ := by
  rw [← check_eq_ok_iff, ← checkCollisions_eq_ok_iff]
  unfold Lexicon.recognizer
  cases config.check with
  | error problem => simp [bind, Except.bind]
  | ok =>
    cases lexicon.checkCollisions config with
    | error problem => simp [bind, Except.bind]
    | ok => simp [bind, Except.bind, pure, Except.pure, eq_comm]

/-- If the width can be read, a recognizer is refused for the first collision
only, and only if case is ignored. -/
theorem recognizer_eq_caseCollision_iff
    {lexicon : Lexicon}
    {config : RecognizerConfig}
    (valid : config.check = .ok ())
    {first second : Bytes} :
    lexicon.recognizer config = .error (.caseCollision first second) ↔
      config.ignoreCase = true ∧
      ∃ pair, lexicon.collisions.head? = some pair ∧
        pair.1.word = first ∧ pair.2.word = second := by
  rw [← checkCollisions_eq_error_iff]
  unfold Lexicon.recognizer
  rw [valid]
  cases lexicon.checkCollisions config with
  | error _ => simp [bind, Except.bind]
  | ok => simp [bind, Except.bind, pure, Except.pure]

theorem fallback_of_recognizer
    {lexicon : Lexicon}
    {config : RecognizerConfig}
    {recognizer : Recognizer}
    (built : lexicon.recognizer config = .ok recognizer) :
    recognizer.fallback = lexicon.fallback := by
  rw [(recognizer_eq_ok_iff.mp built).2.2]

end Lexicon
end WordSwitch
