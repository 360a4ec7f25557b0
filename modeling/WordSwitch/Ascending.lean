/-!
# Ascending lists

The distinct members of a list in ascending order.
-/

namespace WordSwitch

variable {α : Type} [LT α] [DecidableLT α] [DecidableEq α]

/-- Insert a value into an ascending list that may hold it already. -/
def insertAscending (value : α) : List α → List α
  | [] => [value]
  | head :: rest =>
    if value = head then head :: rest
    else if value < head then value :: head :: rest
    else head :: insertAscending value rest

/-- The distinct members of a list in ascending order. -/
def ascending (values : List α) : List α :=
  values.foldr insertAscending []

theorem mem_insertAscending {value other : α} {values : List α} :
    other ∈ insertAscending value values ↔ other = value ∨ other ∈ values := by
  induction values with
  | nil => simp [insertAscending]
  | cons head rest hypothesis =>
    simp only [insertAscending]
    split
    · next equal => simp [equal]
    · split
      · simp
      · simp only [List.mem_cons, hypothesis]
        grind

@[simp] theorem mem_ascending {value : α} {values : List α} :
    value ∈ ascending values ↔ value ∈ values := by
  induction values with
  | nil => simp [ascending]
  | cons head rest hypothesis =>
    rw [ascending, List.foldr_cons, mem_insertAscending, ← ascending,
      hypothesis, List.mem_cons]

end WordSwitch
