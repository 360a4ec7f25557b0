import WordSwitch.Program.Code

/-!
# Running generated functions

What the generated functions return.  A switch compares the value it reads
with the constants in its body, and runs the body from the first that is
equal; statements follow each other, past further constants, until one returns
or leaves the switch.  Values depend on the platform: on the order of bytes in
memory, and on whether a plain character is signed.
-/

namespace WordSwitch
namespace Program

/-- What the values of characters and of wide reads depend on. -/
structure Platform where
  isBigEndian : Bool
  isCharSigned : Bool
deriving DecidableEq, Repr

namespace Platform

/-- The value of a character as an integer of 32 bits. -/
def character (platform : Platform) (byte : UInt8) : Nat :=
  if platform.isCharSigned && 128 ≤ byte then 0xffffff00 + byte.toNat
  else byte.toNat

/-- The value of bytes in memory, the first of them at the lowest address. -/
def memory (platform : Platform) : Bytes → Nat
  | [] => 0
  | byte :: rest =>
    if platform.isBigEndian then
      byte.toNat <<< (8 * rest.length) + platform.memory rest
    else
      byte.toNat + 256 * platform.memory rest

/-- The value of a byte placed in a wide constant of `bits` bits, the lowest
address at shift zero. -/
def placed (platform : Platform) (bits shift : Nat) (byte : UInt8) : Nat :=
  if platform.isBigEndian then byte.toNat <<< (bits - 8 - shift)
  else byte.toNat <<< shift

/-- The value of the parts of a wide constant. -/
def wideConstant
    (platform : Platform)
    (bits : Nat) :
    (shift : Nat) → Bytes → Nat
  | _, [] => 0
  | shift, byte :: rest =>
    platform.placed bits shift byte |||
      platform.wideConstant bits (shift + 8) rest

/-- The value of a constant. -/
def constant (platform : Platform) : Bytes → Nat
  | [byte] => platform.character byte
  | chunk => platform.wideConstant (8 * chunk.length) 0 chunk

/-- The value of some bytes that are read. -/
def read (platform : Platform) : Bytes → Nat
  | [byte] => platform.character byte
  | chunk => platform.memory chunk

end Platform

namespace Subject

/-- The bytes that are read, if the input has them all. -/
def bytes? (subject : Subject) (input : Bytes) : Option Bytes :=
  if subject.offset + subject.width ≤ input.length then
    some ((input.drop subject.offset).take subject.width)
  else
    none

/-- The value that is compared with the constants. -/
def value? (subject : Subject) (platform : Platform) (input : Bytes) :
    Option Nat :=
  (subject.bytes? input).map fun chunk =>
    if subject.isFolded then
      platform.read chunk ||| Chunk.foldMask subject.width
    else
      platform.read chunk

end Subject

/-- How the run of some code ends. -/
inductive Outcome where
  /-- An enumerator is returned. -/
  | returned (label : String)
  /-- The innermost switch is left. -/
  | left
  /-- The end is reached. -/
  | finished
  /-- A read goes past the end of the input. -/
  | undefined
deriving DecidableEq, Repr

namespace Code

/-- Run code, or pass over it in search of a constant with some value. -/
def run
    (platform : Platform)
    (input : Bytes) :
    (sought : Option Nat) → Code → Outcome
  | _, nil => .finished
  | sought, unused next => next.run platform input sought
  | none, constant _ next => next.run platform input none
  | some value, constant chunk next =>
    if platform.constant chunk = value then next.run platform input none
    else next.run platform input (some value)
  | none, answer label _ => .returned label
  | some value, answer _ next => next.run platform input (some value)
  | none, leave _ => .left
  | some value, leave next => next.run platform input (some value)
  | some value, switch _ _ next => next.run platform input (some value)
  | none, switch subject body next =>
    match subject.value? platform input with
    | none => .undefined
    | some value =>
      match body.run platform input (some value) with
      | .left | .finished => next.run platform input none
      | outcome => outcome

end Code

namespace Definitions

/-- How a call of the entry function ends. -/
def call
    (definitions : Definitions)
    (platform : Platform)
    (input : Bytes) :
    Outcome :=
  match findIn? input.length definitions.functions with
  | some code => code.run platform input none
  | none => .returned definitions.fallback

end Definitions

end Program
end WordSwitch
