/-!
# Finite maps in order of first assignment

A key keeps the place at which it was first assigned; assigning it again
replaces its value there.
-/

namespace WordSwitch

/-- Replace the value of a key in place, or append the key. -/
def assignIn
    {κ ν : Type}
    [DecidableEq κ]
    (key : κ)
    (value : ν) :
    List (κ × ν) → List (κ × ν)
  | [] => [(key, value)]
  | (otherKey, otherValue) :: rest =>
    if otherKey = key then (key, value) :: rest
    else (otherKey, otherValue) :: assignIn key value rest

/-- The first value listed for a key. -/
def findIn?
    {κ ν : Type}
    [DecidableEq κ]
    (key : κ) :
    List (κ × ν) → Option ν
  | [] => none
  | (otherKey, value) :: rest =>
    if otherKey = key then some value else findIn? key rest

/-- A finite map that remembers the order in which keys were first
assigned. -/
structure OrderedMap (κ ν : Type) where
  toList : List (κ × ν)
deriving DecidableEq, Repr

namespace OrderedMap

variable {κ ν : Type} [DecidableEq κ]

/-- The map without keys. -/
def empty : OrderedMap κ ν := ⟨[]⟩

/-- The value of a key. -/
def get? (map : OrderedMap κ ν) (key : κ) : Option ν :=
  findIn? key map.toList

/-- Give a key a value. -/
def assign (map : OrderedMap κ ν) (key : κ) (value : ν) : OrderedMap κ ν :=
  ⟨assignIn key value map.toList⟩

@[simp] theorem get?_empty (key : κ) :
    (empty : OrderedMap κ ν).get? key = none := rfl

theorem findIn?_assignIn_self (key : κ) (value : ν) (pairs : List (κ × ν)) :
    findIn? key (assignIn key value pairs) = some value := by
  induction pairs with
  | nil => simp [assignIn, findIn?]
  | cons pair rest hypothesis =>
    by_cases equal : pair.1 = key <;>
      simp [assignIn, findIn?, equal, hypothesis]

theorem findIn?_assignIn_of_ne
    {key other : κ}
    (different : other ≠ key)
    (value : ν)
    (pairs : List (κ × ν)) :
    findIn? other (assignIn key value pairs) = findIn? other pairs := by
  induction pairs with
  | nil => simp [assignIn, findIn?, Ne.symm different]
  | cons pair rest hypothesis =>
    by_cases equal : pair.1 = key <;>
      simp [assignIn, findIn?, equal, hypothesis, Ne.symm different]

@[simp] theorem get?_assign_self
    (map : OrderedMap κ ν)
    (key : κ)
    (value : ν) :
    (map.assign key value).get? key = some value :=
  findIn?_assignIn_self key value map.toList

theorem get?_assign_of_ne
    (map : OrderedMap κ ν)
    {key other : κ}
    (different : other ≠ key)
    (value : ν) :
    (map.assign key value).get? other = map.get? other :=
  findIn?_assignIn_of_ne different value map.toList

end OrderedMap

end WordSwitch
