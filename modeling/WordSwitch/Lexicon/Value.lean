/-!
# Values and their supply

Values are the integers that 64 bits hold in two's complement.  An entry
that declares no value takes one from a supply, which stays above every
value seen before and runs dry once the largest value is taken.
-/

namespace WordSwitch

/-- The least value. -/
def minValue : Int := -9223372036854775808

/-- The largest value. -/
def maxValue : Int := 9223372036854775807

/-- The value after a value, if there is one. -/
def nextValue? (value : Int) : Option Int :=
  if value < maxValue then some (value + 1) else none

/-- The source of values for entries that declare none. -/
structure ValueSupply where
  /-- The value handed out next; `none` when the supply is dry. -/
  next : Option Int
deriving DecidableEq, Repr

namespace ValueSupply

/-- A fresh supply starts at zero. -/
def fresh : ValueSupply := ⟨some 0⟩

/-- Move past a value that was declared. -/
def observe (supply : ValueSupply) (value : Int) : ValueSupply :=
  match supply.next, nextValue? value with
  | some next, some after => ⟨some (max next after)⟩
  | _, _ => ⟨none⟩

/-- Hand out the next value, if any is left. -/
def take? (supply : ValueSupply) : Option (Int × ValueSupply) :=
  supply.next.map fun value => (value, ⟨nextValue? value⟩)

/-- What is said when the supply is dry. -/
def dryMessage : String :=
  "no value left for an entry without an explicit value; " ++
    "the counter passed i64::MAX"

end ValueSupply

end WordSwitch
