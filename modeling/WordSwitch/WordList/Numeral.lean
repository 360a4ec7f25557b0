import WordSwitch.Bytes
import WordSwitch.Lexicon.Value

/-!
# Numerals

A value is written in decimal, or in hexadecimal after `0x` or `0X`.  A sign
may stand in front of the whole numeral and another one in front of the
digits; both count.  The digits are read with the sign in front of them, so
the sign in front of the whole may have to negate the least value.
-/

namespace WordSwitch
namespace Numeral

/-- The number that an ASCII digit stands for in some base up to sixteen. -/
def digit? (base : Nat) (byte : UInt8) : Option Nat :=
  let code := byte.toNat
  let digit :=
    if 48 ≤ code && code ≤ 57 then code - 48
    else if 97 ≤ code && code ≤ 102 then code - 87
    else if 65 ≤ code && code ≤ 70 then code - 55
    else base
  if digit < base then some digit else none

/-- Append a digit to a number read so far. -/
def appendDigit (base : Nat) (read : Option Nat) (byte : UInt8) : Option Nat :=
  match read, digit? base byte with
  | some number, some digit => some (number * base + digit)
  | _, _ => none

/-- The number that a non-empty run of digits stands for. -/
def magnitude? (base : Nat) (digits : Bytes) : Option Nat :=
  if digits.isEmpty then none
  else digits.foldl (appendDigit base) (some 0)

/-- Take a sign off the front: whether it is a minus, and what follows. -/
def takeSign : Bytes → Bool × Bytes
  | 45 :: rest => (true, rest)
  | 43 :: rest => (false, rest)
  | bytes => (false, bytes)

/-- Take the mark of a base off the front: the base, and what follows. -/
def takeBase : Bytes → Nat × Bytes
  | 48 :: 120 :: rest => (16, rest)
  | 48 :: 88 :: rest => (16, rest)
  | bytes => (10, bytes)

/-- An integer if it is a value. -/
def inRange? (number : Int) : Option Int :=
  if minValue ≤ number ∧ number ≤ maxValue then some number else none

/-- Negate a number if a minus was read. -/
def applySign (isNegative : Bool) (number : Int) : Int :=
  if isNegative then -number else number

/-- The value that digits with a sign of their own stand for. -/
def signed? (base : Nat) (bytes : Bytes) : Option Int :=
  let (isNegative, digits) := takeSign bytes
  match magnitude? base digits with
  | some number => inRange? (applySign isNegative number)
  | none => none

/-- Why no value is read. -/
inductive Refusal where
  /-- The text is no numeral, or its digits are out of range. -/
  | invalid
  /-- The number read is the least value, and it is to be negated. -/
  | overflow
deriving DecidableEq, Repr

/-- Negate a value if a minus was read.  The least value has no negation. -/
def negated (isNegative : Bool) (number : Int) : Except Refusal Int :=
  match inRange? (applySign isNegative number) with
  | some value => .ok value
  | none => .error .overflow

/-- The value that a numeral stands for. -/
def read (numeral : Bytes) : Except Refusal Int :=
  let (isNegative, unsigned) := takeSign numeral
  let (base, digits) := takeBase unsigned
  match signed? base digits with
  | some number => negated isNegative number
  | none => .error .invalid

end Numeral
end WordSwitch
