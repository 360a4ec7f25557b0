/-!
# Enumerators

What a word stands for: a member of the generated enumeration.
-/

namespace WordSwitch

/-- A label with its value. -/
structure Enumerator where
  label : String
  value : Int
deriving DecidableEq, Repr

end WordSwitch
