import Mathlib.Tactic.ByContra
import Mathlib.Tactic.Tauto
import WordSwitch.WordList.Numeral

/-!
# The bytes of a numeral

A numeral that stands for a value consists of signs, the mark of a base, and
digits of that base.
-/

namespace WordSwitch
namespace Numeral

theorem mem_of_mem_takeSign
    {bytes : Bytes}
    {byte : UInt8}
    (member : byte ∈ bytes) :
    byte = 45 ∨ byte = 43 ∨ byte ∈ (takeSign bytes).2 := by
  unfold takeSign
  split
  · rcases List.mem_cons.mp member with minus | rest
    · exact .inl minus
    · exact .inr (.inr rest)
  · rcases List.mem_cons.mp member with plus | rest
    · exact .inr (.inl plus)
    · exact .inr (.inr rest)
  · exact .inr (.inr member)

theorem mem_of_mem_takeBase
    {bytes : Bytes}
    {byte : UInt8}
    (member : byte ∈ bytes) :
    byte = 48 ∨ byte = 120 ∨ byte = 88 ∨ byte ∈ (takeBase bytes).2 := by
  unfold takeBase
  split
  · simp only [List.mem_cons] at member
    tauto
  · simp only [List.mem_cons] at member
    tauto
  · exact .inr (.inr (.inr member))

theorem foldl_appendDigit_none (base : Nat) (digits : Bytes) :
    digits.foldl (appendDigit base) none = none := by
  induction digits with
  | nil => rfl
  | cons byte rest hypothesis => exact hypothesis

theorem isSome_digit?_of_foldl_appendDigit
    {base : Nat}
    {digits : Bytes}
    {read : Option Nat}
    (reads : (digits.foldl (appendDigit base) read).isSome = true) :
    ∀ byte ∈ digits, (digit? base byte).isSome = true := by
  induction digits generalizing read with
  | nil => simp
  | cons byte rest hypothesis =>
    rw [List.foldl_cons] at reads
    refine List.forall_mem_cons.mpr ⟨?_, hypothesis reads⟩
    by_contra noDigit
    rw [Option.not_isSome_iff_eq_none] at noDigit
    have stops : appendDigit base read byte = none := by
      cases read with
      | none => rfl
      | some number => simp [appendDigit, noDigit]
    rw [stops, foldl_appendDigit_none] at reads
    cases reads

/-- A run of digits that stands for a number holds digits only. -/
theorem isSome_digit?_of_magnitude?
    {base : Nat}
    {digits : Bytes}
    (reads : (magnitude? base digits).isSome = true) :
    ∀ byte ∈ digits, (digit? base byte).isSome = true := by
  unfold magnitude? at reads
  split at reads
  · cases reads
  · exact isSome_digit?_of_foldl_appendDigit reads

theorem isSome_magnitude?_of_signed?
    {base : Nat}
    {bytes : Bytes}
    (reads : (signed? base bytes).isSome = true) :
    (magnitude? base (takeSign bytes).2).isSome = true := by
  unfold signed? at reads
  cases magnitude : magnitude? base (takeSign bytes).2 with
  | some number => rfl
  | none => simp [magnitude] at reads

/-- What is read, and what would be if its negation did not overflow, are digits
with signs of their own behind the mark of a base. -/
theorem isSome_signed?_of_read
    {numeral : Bytes}
    (reads : read numeral ≠ .error .invalid) :
    (signed? (takeBase (takeSign numeral).2).1
      (takeBase (takeSign numeral).2).2).isSome = true := by
  unfold read at reads
  cases signed : signed? (takeBase (takeSign numeral).2).1
      (takeBase (takeSign numeral).2).2 with
  | some number => rfl
  | none => simp [signed] at reads

/-- A numeral is made of signs, the mark of a base, and digits. -/
theorem mem_or_isSome_digit?
    {numeral : Bytes}
    (reads : read numeral ≠ .error .invalid)
    {byte : UInt8}
    (member : byte ∈ numeral) :
    byte ∈ [45, 43, 48, 120, 88] ∨
      ∃ base, (digit? base byte).isSome = true := by
  rcases mem_of_mem_takeSign member with rfl | rfl | unsigned
  · simp
  · simp
  rcases mem_of_mem_takeBase unsigned with rfl | rfl | rfl | signed
  · simp
  · simp
  · simp
  rcases mem_of_mem_takeSign signed with rfl | rfl | digits
  · simp
  · simp
  have magnitude := isSome_magnitude?_of_signed? (isSome_signed?_of_read reads)
  exact .inr ⟨_, isSome_digit?_of_magnitude? magnitude byte digits⟩

end Numeral

end WordSwitch
