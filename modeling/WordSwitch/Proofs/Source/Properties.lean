import WordSwitch.Proofs.Source.Semantics

/-!
# Properties of source text

What can be seen of functions without running them: the constants of a switch,
the ways into an arm of it, the bytes that it reads, and the functions that it
uses to read them.
-/

namespace WordSwitch
namespace Source

namespace Expression

end Expression

namespace Sequence

/-- No statement is run on into a label, except for one that labels it too.
Control may come from the statement before unless that one always jumps. -/
def NoFallThrough : (mayArrive : Bool) → Sequence → Prop
  | _, nil => True
  | _, unused _ next => next.NoFallThrough true
  | mayArrive, label _ next | mayArrive, otherwise next =>
    mayArrive = false ∧ next.NoFallThrough false
  | _, answer _ next | _, delegate _ _ next | _, leave next =>
    next.NoFallThrough false
  | _, switch _ body next =>
    body.NoFallThrough false ∧ next.NoFallThrough true

end Sequence

namespace Function

/-- What a function runs; nothing if it copies. -/
def sequence (function : Function) : Sequence :=
  match function.body with
  | .load _ _ => .nil
  | .code sequence => sequence

/-- The switches of a function. -/
def switches (function : Function) : List (Expression × Sequence) :=
  function.sequence.switches

end Function

namespace Definitions

/-- The number of bits that a function copies. -/
def copiedBits? (definitions : Definitions) (name : String) : Option Nat :=
  match definitions.function? name with
  | some ⟨_, _, .load bits _⟩ => some bits
  | _ => none

/-- No function runs on into a label. -/
def NoFallThrough (definitions : Definitions) : Prop :=
  ∀ function ∈ definitions.functions, function.sequence.NoFallThrough false

end Definitions

end Source
end WordSwitch
