import WordSwitch.Bytes
import WordSwitch.File.Failure

/-!
# Sources

A source delivers bytes until it ends or fails.
-/

namespace WordSwitch

/-- The bytes that a source delivers, and the failure that cuts it off if
there is one. -/
structure Source where
  delivered : Bytes
  failure : Option FileFailure
deriving DecidableEq, Repr

namespace Source

/-- A source that delivers all its bytes. -/
def ofBytes (bytes : Bytes) : Source := ⟨bytes, none⟩

/-- A source that fails at once. -/
def failing (failure : FileFailure) : Source := ⟨[], some failure⟩

/-- The lines to read: what follows the last line feed counts only if the
source ends there. -/
def lines (source : Source) : List Bytes :=
  match source.failure with
  | none => Bytes.lines source.delivered
  | some _ => Bytes.completeLines source.delivered

end Source

end WordSwitch
