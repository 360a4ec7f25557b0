import Mathlib.Data.List.Nodup
import Mathlib.Tactic.ByContra
import WordSwitch.Ascending

/-!
# Ascending lists are ascending

The members of an ascending list stand in strictly ascending order, so none of
them is listed twice.
-/

namespace WordSwitch

variable {α : Type} [LT α] [DecidableLT α] [DecidableEq α]

theorem pairwise_insertAscending
    [Trans (α := α) (· < ·) (· < ·) (· < ·)]
    [Std.Trichotomous (α := α) (· < ·)]
    {value : α}
    {values : List α}
    (sorted : values.Pairwise (· < ·)) :
    (insertAscending value values).Pairwise (· < ·) := by
  induction values with
  | nil => simp [insertAscending]
  | cons head rest hypothesis =>
    obtain ⟨first, later⟩ := List.pairwise_cons.mp sorted
    unfold insertAscending
    split
    · exact sorted
    · next different =>
      split
      · next before =>
        refine List.pairwise_cons.mpr ⟨?_, sorted⟩
        intro other listed
        rcases List.mem_cons.mp listed with rfl | inRest
        · exact before
        · exact Trans.trans before (first other inRest)
      · next notBefore =>
        refine List.pairwise_cons.mpr ⟨?_, hypothesis later⟩
        intro other listed
        rcases mem_insertAscending.mp listed with rfl | inRest
        · by_contra notAfter
          exact different
            (Std.Trichotomous.trichotomous other head notBefore notAfter)
        · exact first other inRest

/-- Each member is less than those after it. -/
theorem pairwise_ascending
    [Trans (α := α) (· < ·) (· < ·) (· < ·)]
    [Std.Trichotomous (α := α) (· < ·)]
    (values : List α) :
    (ascending values).Pairwise (· < ·) := by
  induction values with
  | nil => exact List.Pairwise.nil
  | cons head rest hypothesis => exact pairwise_insertAscending hypothesis

/-- No member is listed twice. -/
theorem nodup_ascending
    [Trans (α := α) (· < ·) (· < ·) (· < ·)]
    [Std.Trichotomous (α := α) (· < ·)]
    [Std.Irrefl (α := α) (· < ·)]
    (values : List α) :
    (ascending values).Nodup :=
  (pairwise_ascending values).nodup

example : ascending [3, 1, 2, 1] = [1, 2, 3] := by decide

end WordSwitch
