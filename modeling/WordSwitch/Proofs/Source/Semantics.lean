import Mathlib.Algebra.GroupWithZero.Nat
import WordSwitch.Lexicon.OrderedMap
import WordSwitch.Proofs.Source.Preprocess

/-!
# What source text means

Expressions have typed values and sequences are run, on inputs of known length.
Integers are bit patterns.  Sizes are not bounded, as no input is longer than
memory.  Whatever the meaning of the text does not define ends a run.
-/

namespace WordSwitch
namespace Source

/-! ## Values -/

/-- The types of integers that take part in operations. -/
inductive IntegerType where
  /-- Signed, of 32 bits. -/
  | int
  /-- Unsigned, of 32 bits. -/
  | unsigned
  /-- Unsigned, of 64 bits. -/
  | long
  /-- Unsigned, of as many bits as it takes. -/
  | size
deriving DecidableEq, Repr

/-- What an expression stands for. -/
inductive Value where
  | integer (type : IntegerType) (pattern : Nat)
  /-- A place in the input. -/
  | pointer (offset : Nat)
deriving DecidableEq, Repr

namespace IntegerType

/-- The bits of a value of one type as one of another; `none` where no text is
to depend on it. -/
def convert? : (target source : IntegerType) → (pattern : Nat) → Option Nat
  | int, int, pattern | int, unsigned, pattern
  | unsigned, int, pattern | unsigned, unsigned, pattern
  | long, unsigned, pattern | long, long, pattern
  | size, unsigned, pattern | size, long, pattern | size, size, pattern =>
    some pattern
  | int, long, pattern | unsigned, long, pattern => some (pattern % 2 ^ 32)
  | long, int, pattern =>
    some (if pattern < 2 ^ 31 then pattern else pattern + (2 ^ 64 - 2 ^ 32))
  | size, int, pattern => if pattern < 2 ^ 31 then some pattern else none
  | int, size, _ | unsigned, size, _ | long, size, _ => none

/-- The type in which two operands meet. -/
def common : IntegerType → IntegerType → IntegerType
  | size, _ | _, size => size
  | long, _ | _, long => long
  | unsigned, _ | _, unsigned => unsigned
  | int, int => int

end IntegerType

namespace Value

/-- The value of a number that is written. -/
def ofNumeral (value : Nat) (isLong : Bool) : Value :=
  if isLong then integer .long (value % 2 ^ 64)
  else if value < 2 ^ 31 then integer .int value
  else integer .size value

/-- An integer that is not negative. -/
def natural? : Value → Option Nat
  | integer type pattern => IntegerType.size.convert? type pattern
  | pointer _ => none

/-- The value of a cast. -/
def cast? : Cast → Value → Option Value
  | .long, integer type pattern =>
    (IntegerType.long.convert? type pattern).map (integer .long)
  | .byte, integer _ pattern => some (integer .int (pattern % 256))
  | _, pointer _ => none

/-- The value of an operation. -/
def operate? : Operator → Value → Value → Option Value
  | .or, integer first left, integer second right =>
    let type := first.common second
    if type = .size then none
    else
      (type.convert? first left).bind fun left =>
        (type.convert? second right).map fun right =>
          integer type (left ||| right)
  | .shift, integer .long left, amount =>
    amount.natural?.bind fun amount =>
      if amount < 64 then some (integer .long (left <<< amount % 2 ^ 64))
      else none
  | .plus, pointer offset, amount =>
    amount.natural?.map fun amount => pointer (offset + amount)
  | .minus, integer .int left, integer .int right =>
    if right ≤ left ∧ left < 2 ^ 31 then some (integer .int (left - right))
    else none
  | _, _, _ => none

end Value

/-- The type of a number that is copied, once it takes part in an
operation. -/
def IntegerType.ofBits (bits : Nat) : IntegerType :=
  if bits < 32 then int else if bits = 32 then unsigned else long

/-! ## Expressions -/

/-- The macro with a name. -/
def Definitions.macro? (definitions : Definitions) (name : String) :
    Option Macro :=
  definitions.macros.find? (·.name == name)

/-- The function with a name. -/
def Definitions.function? (definitions : Definitions) (name : String) :
    Option Function :=
  definitions.functions.find? (·.name == name)

/-- What the meaning of expressions depends on, besides variables. -/
structure Machine where
  platform : Program.Platform
  input : Bytes
  definitions : Definitions

/-- The values of the expressions that commas separate, given the variables in
scope and what calls stand for. -/
def Expression.evaluate?
    (machine : Machine)
    (call? : String → List Value → Option Value)
    (scope : List (String × Value)) :
    Expression → Option (List Value)
  | numeral value isLong => some [.ofNumeral value isLong]
  | character byte =>
    some [.integer .int (machine.platform.character byte)]
  | name word => (findIn? word scope).map ([·])
  | index array position =>
    match findIn? array scope,
      position.evaluate? machine call? scope with
    | some (.pointer offset), some [amount] =>
      amount.natural?.bind fun amount =>
        machine.input[offset + amount]?.map fun byte =>
          [.integer .int (machine.platform.character byte)]
    | _, _ => none
  | call function arguments =>
    (arguments.evaluate? machine call? scope).bind fun values =>
      (call? function values).map ([·])
  | cast type operand =>
    match operand.evaluate? machine call? scope with
    | some [value] => (value.cast? type).map ([·])
    | _ => none
  | binary operator left right =>
    match operator, left.evaluate? machine call? scope,
      right.evaluate? machine call? scope with
    | .comma, some first, some second => some (first ++ second)
    | operator, some [first], some [second] =>
      (first.operate? operator second).map ([·])
    | _, _, _ => none

namespace Machine

/-- What is copied from some place in the input, if it is there. -/
def load? (machine : Machine) (bits offset : Nat) : Option Value :=
  let width := bits / 8
  if offset + width ≤ machine.input.length then
    let bytes := (machine.input.drop offset).take width
    some (.integer (.ofBits bits) (machine.platform.memory bytes))
  else
    none

/-- The value of a macro applied to arguments. -/
def expand? (machine : Machine) (name : String) (arguments : List Value) :
    Option Value :=
  match machine.definitions.macro? name with
  | some (.function _ parameters body) =>
    if parameters.length = arguments.length then
      match body.evaluate? machine (fun _ _ => none)
        (parameters.zip arguments) with
      | some [value] => some value
      | _ => none
    else none
  | _ => none

/-- The value of a call inside of an expression: of a macro, or else of a
function that copies. -/
def call? (machine : Machine) (name : String) (arguments : List Value) :
    Option Value :=
  if (machine.definitions.macro? name).isSome then
    machine.expand? name arguments
  else
    match machine.definitions.function? name, arguments with
    | some ⟨_, [⟨parameter, true⟩], .load bits pointer⟩, [.pointer offset] =>
      if parameter = pointer then machine.load? bits offset else none
    | _, _ => none

/-- The value of a constant as one of some type. -/
def constant? (machine : Machine) (type : IntegerType)
    (expression : Expression) :
    Option Nat :=
  match expression.evaluate? machine machine.expand? [] with
  | some [.integer source pattern] => type.convert? source pattern
  | _ => none

end Machine

/-! ## Statements -/

/-- How a run ends. -/
inductive Ending where
  /-- What a name stands for is returned, perhaps qualified. -/
  | returned (path : List String)
  /-- The innermost switch is left. -/
  | left
  /-- The end is reached. -/
  | finished
  | undefined
deriving DecidableEq, Repr

/-- What a run passes over statements in search of. -/
inductive Sought where
  /-- A constant with some value. -/
  | constant (type : IntegerType) (pattern : Nat)
  | otherwise
deriving DecidableEq, Repr

namespace Sequence

/-- The constants that label statements of a sequence, but not those of the
switches in it. -/
def constants : Sequence → List Expression
  | nil => []
  | label constant next => constant :: next.constants
  | unused _ next | otherwise next | answer _ next | delegate _ _ next
  | leave next | switch _ _ next => next.constants

/-- The switches in a sequence and in the bodies of its switches. -/
def switches : Sequence → List (Expression × Sequence)
  | nil => []
  | switch subject body next =>
    (subject, body) :: body.switches ++ next.switches
  | unused _ next | label _ next | otherwise next | answer _ next
  | delegate _ _ next | leave next => next.switches

/-- What the body of a switch is searched for; `none` if one of the constants
has no value. -/
def sought?
    (machine : Machine)
    (type : IntegerType)
    (pattern : Nat)
    (body : Sequence) :
    Option Sought :=
  (body.constants.mapM (machine.constant? type)).map fun values =>
    if pattern ∈ values then .constant type pattern else .otherwise

/-- A body is searched if all constants have values. -/
theorem sought?_of_values
    {machine : Machine}
    {type : IntegerType}
    {body : Sequence}
    {values : List Nat}
    (values_eq : body.constants.map (machine.constant? type) = values.map some)
    (pattern : Nat) :
    body.sought? machine type pattern =
      some (if pattern ∈ values then .constant type pattern
        else .otherwise) := by
  have all : body.constants.mapM (machine.constant? type) = some values := by
    have again := @List.mapM_map Option _ _ _ _ _ (machine.constant? type) id
      body.constants
    rw [Function.id_comp] at again
    rw [← again, values_eq, List.mapM_map, Function.id_comp]
    simpa using @List.mapM_pure Option _ _ _ _ values id
  rw [sought?, all]
  rfl

/-- Run a sequence, or pass over it in search of a label.  Functions are
invoked by name. -/
def run
    (machine : Machine)
    (invoke : String → List Value → Ending)
    (scope : List (String × Value)) :
    Option Sought → Sequence → Ending
  | _, nil => .finished
  | goal, unused _ next => next.run machine invoke scope goal
  | none, label _ next => next.run machine invoke scope none
  | some (.constant type pattern), label constant next =>
    match machine.constant? type constant with
    | some value =>
      if value = pattern then next.run machine invoke scope none
      else next.run machine invoke scope (some (.constant type pattern))
    | none => .undefined
  | some .otherwise, label _ next =>
    next.run machine invoke scope (some .otherwise)
  | some (.constant type pattern), otherwise next =>
    next.run machine invoke scope (some (.constant type pattern))
  | _, otherwise next => next.run machine invoke scope none
  | none, answer path _ => .returned path
  | none, delegate function arguments _ =>
    match arguments.evaluate? machine machine.call? scope with
    | some values => invoke function values
    | none => .undefined
  | none, leave _ => .left
  | none, switch subject body next =>
    match subject.evaluate? machine machine.call? scope with
    | some [.integer type pattern] =>
      match body.sought? machine type pattern with
      | some sought =>
        match body.run machine invoke scope (some sought) with
        | .left | .finished => next.run machine invoke scope none
        | ending => ending
      | none => .undefined
    | _ => .undefined
  | goal, answer _ next | goal, delegate _ _ next | goal, leave next
  | goal, switch _ _ next => next.run machine invoke scope goal

end Sequence

/-- The value of a parameter for which some value is passed. -/
def Parameter.receive? (parameter : Parameter) : Value → Option Value
  | .pointer offset =>
    if parameter.isPointer then some (.pointer offset) else none
  | .integer type pattern =>
    if parameter.isPointer then none
    else (IntegerType.size.convert? type pattern).map (.integer .size)

/-- The values of parameters for which some values are passed. -/
def receive? : List Parameter → List Value → Option (List (String × Value))
  | [], [] => some []
  | parameter :: parameters, value :: values =>
    (parameter.receive? value).bind fun received =>
      (receive? parameters values).map ((parameter.name, received) :: ·)
  | _, _ => none

namespace Machine

/-- Invoke a function.  Calls are nested no deeper than `depth`. -/
def invoke (machine : Machine) :
    (depth : Nat) → (name : String) → (arguments : List Value) → Ending
  | 0, _, _ => .undefined
  | depth + 1, name, arguments =>
    match machine.definitions.function? name with
    | some ⟨_, parameters, .code sequence⟩ =>
      match receive? parameters arguments with
      | some scope =>
        sequence.run machine (machine.invoke depth) scope none
      | none => .undefined
    | _ => .undefined

end Machine

namespace Definitions

/-- How a call of a function with an input and its length ends. -/
def call
    (definitions : Definitions)
    (platform : Program.Platform)
    (name : String)
    (input : Bytes) :
    Ending :=
  let machine : Machine := ⟨platform, input, definitions⟩
  machine.invoke definitions.functions.length name
    [.pointer 0, .integer .size input.length]

end Definitions

end Source
end WordSwitch
