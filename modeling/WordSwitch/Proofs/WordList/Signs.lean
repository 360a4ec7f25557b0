import Mathlib.Data.List.Forall2
import Mathlib.Data.Nat.Digits.Defs
import WordSwitch.Proofs.Bytes
import WordSwitch.Proofs.Chunk.Case
import WordSwitch.Proofs.WordList.Grammar

/-!
# The signs of a numeral

A numeral of a value is a sign or none, perhaps the mark of base sixteen, and
digits.  The reader takes the sign first and leaves the rest to a reader of
integers, which takes a sign of its own.  So it accepts a second sign in front
of the digits, and refuses the least value, whose digits are out of range
without their sign.  Where two minus signs stand before the digits of the least
value, the second negation overflows.  All other texts are read as they should
be.
-/

namespace WordSwitch

namespace Numeral

/-! ## Runs of digits -/

/-- A byte is a digit of a base, a letter in either case, and stands for a
number. -/
def IsDigit (base : Nat) (byte : UInt8) (digit : Nat) : Prop :=
  digit < base ∧ (byte.toNat = digit.digitChar.toNat ∨
    byte.toNat = digit.digitChar.toUpper.toNat)

instance (base : Nat) (byte : UInt8) (digit : Nat) :
    Decidable (IsDigit base byte digit) :=
  inferInstanceAs (Decidable (_ ∧ _))

/-- The bases of numerals. -/
def IsBase (base : Nat) : Prop := base = 10 ∨ base = 16

/-- Digits, the highest first, stand for a number. -/
def Spells (base : Nat) (digits : Bytes) (number : Nat) : Prop :=
  digits ≠ [] ∧ ∃ values, List.Forall₂ (IsDigit base) digits values ∧
    Nat.ofDigits base values.reverse = number

theorem digit?_eq_some_iff
    {base : Nat}
    (isBase : IsBase base)
    {byte : UInt8}
    {digit : Nat} :
    digit? base byte = some digit ↔ IsDigit base byte digit := by
  have inside : ∀ byte : UInt8, ∀ value : Fin 16,
      (digit? 10 byte = some value.val ↔ IsDigit 10 byte value.val) ∧
      (digit? 16 byte = some value.val ↔ IsDigit 16 byte value.val) :=
    Byte.forall_of_codes (by decide +kernel)
  have bounded : digit? base byte = some digit → digit < base := by
    intro read
    simp only [digit?, Option.ite_none_right_eq_some,
      Option.some.injEq] at read
    exact read.2 ▸ read.1
  have base_le : base ≤ 16 := by
    rcases isBase with rfl | rfl <;> omega
  by_cases small : digit < 16
  · have both := inside byte ⟨digit, small⟩
    rcases isBase with rfl | rfl
    · exact both.1
    · exact both.2
  · constructor
    · intro read
      have := bounded read
      omega
    · rintro ⟨below, _⟩
      omega

/-- Digits are read onto a number as positions are counted. -/
theorem foldl_appendDigit_eq_some_iff
    {base : Nat}
    (isBase : IsBase base)
    {digits : Bytes}
    {start number : Nat} :
    digits.foldl (appendDigit base) (some start) = some number ↔
      ∃ values, List.Forall₂ (IsDigit base) digits values ∧
        values.foldl (fun read digit => read * base + digit) start =
          number := by
  induction digits generalizing start with
  | nil => simp
  | cons byte rest hypothesis =>
    rw [List.foldl_cons]
    cases read : digit? base byte with
    | none =>
      have stops : appendDigit base (some start) byte = none := by
        simp [appendDigit, read]
      rw [stops, foldl_appendDigit_none]
      constructor
      · intro stopped
        cases stopped
      · rintro ⟨_, isDigits, _⟩
        cases isDigits with
        | cons isDigit _ =>
          rw [← digit?_eq_some_iff isBase, read] at isDigit
          cases isDigit
    | some digit =>
      have goesOn : appendDigit base (some start) byte =
          some (start * base + digit) := by
        simp [appendDigit, read]
      rw [goesOn, hypothesis]
      constructor
      · rintro ⟨values, isDigits, number_eq⟩
        have isDigit := (digit?_eq_some_iff isBase).mp read
        exact ⟨digit :: values, .cons isDigit isDigits, number_eq⟩
      · rintro ⟨_, isDigits, number_eq⟩
        cases isDigits with
        | @cons _ value _ values isDigit isDigits =>
          rw [← digit?_eq_some_iff isBase, read] at isDigit
          obtain rfl := Option.some.inj isDigit
          exact ⟨values, isDigits, number_eq⟩

theorem magnitude?_eq_some_iff
    {base : Nat}
    (isBase : IsBase base)
    {digits : Bytes}
    {number : Nat} :
    magnitude? base digits = some number ↔ Spells base digits number := by
  have positions : ∀ values : List Nat,
      values.foldl (fun read digit => read * base + digit) 0 =
        Nat.ofDigits base values.reverse := by
    intro values
    rw [Nat.ofDigits_eq_foldr, List.foldr_reverse]
    simp [Nat.add_comm, Nat.mul_comm]
  unfold magnitude? Spells
  by_cases empty : digits = []
  · simp [empty]
  · rw [if_neg (by simpa using empty), foldl_appendDigit_eq_some_iff isBase]
    simp [empty, positions]

/-! ## Numerals with signs -/

/-- What stands in front of a number. -/
inductive Sign where
  | plus
  | minus
deriving DecidableEq, Repr

namespace Sign

def byte : Sign → UInt8
  | plus => 43
  | minus => 45

/-- The bytes of a sign or of none. -/
def written : Option Sign → Bytes
  | none => []
  | some sign => [sign.byte]

/-- Whether there is a sign and it is a minus. -/
def isMinus (sign : Option Sign) : Bool :=
  sign == some minus

/-- A number with the sign in front of it, if there is one. -/
def applied (sign : Option Sign) (number : Int) : Int :=
  applySign (isMinus sign) number

end Sign

/-- The marks of the bases. -/
inductive Marks : Bytes → Nat → Prop where
  | decimal : Marks [] 10
  | lower : Marks [48, 120] 16
  | upper : Marks [48, 88] 16

theorem Marks.isBase {mark : Bytes} {base : Nat} (marks : Marks mark base) :
    IsBase base := by
  cases marks
  · exact .inl rfl
  · exact .inr rfl
  · exact .inr rfl

/-- A text is a sign or none, the mark of a base, a second sign or none, and
digits of a number.  A lone sign in front of the digits of a decimal numeral is
the first. -/
def Signed
    (sign second : Option Sign)
    (text : Bytes)
    (number : Nat) :
    Prop :=
  ∃ mark base digits, Marks mark base ∧ Spells base digits number ∧
    (mark = [] → sign = none → second = none) ∧
    text = Sign.written sign ++ (mark ++ (Sign.written second ++ digits))

/-- Whether a number is a value. -/
def InRange (number : Int) : Prop :=
  minValue ≤ number ∧ number ≤ maxValue

instance (number : Int) : Decidable (InRange number) :=
  inferInstanceAs (Decidable (_ ∧ _))

/-- A text is a numeral of a value: a sign or none, the mark of a base, and
digits. -/
def Writes (text : Bytes) (value : Int) : Prop :=
  ∃ sign number, Signed sign none text number ∧
    Sign.applied sign number = value ∧ InRange value

/-- A text is digits with two signs, and the number with the second sign is a
value, as is that with both. -/
def WritesTwice (text : Bytes) (value : Int) : Prop :=
  ∃ sign second number, Signed sign (some second) text number ∧
    InRange (Sign.applied (some second) number) ∧
    Sign.applied sign (Sign.applied (some second) number) = value ∧
    InRange value

/-- A text is the digits of the least value with two minus signs. -/
def Overflows (text : Bytes) : Prop :=
  Signed (some .minus) (some .minus) text (2 ^ 63)

/-! ## Taking a numeral apart -/

/-- A text does not start with a sign. -/
def StartsUnsigned (text : Bytes) : Prop :=
  ∀ sign : Sign, text.head? ≠ some sign.byte

/-- A text does not start with a mark. -/
def StartsUnmarked (text : Bytes) : Prop :=
  ∀ mark, Marks mark 16 → ¬mark <+: text

theorem takeSign_written
    {sign : Option Sign}
    {rest : Bytes}
    (lone : sign = none → StartsUnsigned rest) :
    takeSign (Sign.written sign ++ rest) = (Sign.isMinus sign, rest) := by
  cases sign with
  | some sign => cases sign <;> rfl
  | none =>
    have unsigned := lone rfl
    change takeSign rest = (false, rest)
    unfold takeSign
    split
    · exact absurd rfl (unsigned .minus)
    · exact absurd rfl (unsigned .plus)
    · rfl

theorem exists_written (text : Bytes) :
    ∃ sign rest, text = Sign.written sign ++ rest ∧
      (sign = none → StartsUnsigned rest) := by
  by_cases signed : ∃ sign : Sign, text.head? = some sign.byte
  · obtain ⟨sign, starts⟩ := signed
    obtain ⟨rest, rfl⟩ := List.head?_eq_some_iff.mp starts
    exact ⟨some sign, rest, rfl, nofun⟩
  · exact ⟨none, text, rfl, fun _ sign starts => signed ⟨sign, starts⟩⟩

theorem takeBase_marks
    {mark : Bytes}
    {base : Nat}
    (marks : Marks mark base)
    {rest : Bytes}
    (lone : mark = [] → StartsUnmarked rest) :
    takeBase (mark ++ rest) = (base, rest) := by
  cases marks with
  | decimal =>
    have unmarked := lone rfl
    change takeBase rest = (10, rest)
    unfold takeBase
    split
    · next later => exact absurd ⟨later, rfl⟩ (unmarked _ .lower)
    · next later => exact absurd ⟨later, rfl⟩ (unmarked _ .upper)
    · rfl
  | lower => rfl
  | upper => rfl

theorem exists_marks (text : Bytes) :
    ∃ mark base rest, Marks mark base ∧ text = mark ++ rest ∧
      (mark = [] → StartsUnmarked rest) := by
  by_cases marked : ∃ mark, Marks mark 16 ∧ mark <+: text
  · obtain ⟨mark, marks, rest, rfl⟩ := marked
    refine ⟨mark, 16, rest, marks, rfl, ?_⟩
    rintro rfl
    cases marks
  · exact ⟨[], 10, text, .decimal, rfl,
      fun _ mark marks starts => marked ⟨mark, marks, starts⟩⟩

theorem Spells.startsUnsigned
    {base : Nat}
    (isBase : IsBase base)
    {digits : Bytes}
    {number : Nat}
    (spells : Spells base digits number) :
    StartsUnsigned digits := by
  obtain ⟨nonempty, values, isDigits, _⟩ := spells
  cases isDigits with
  | nil => exact absurd rfl nonempty
  | @cons first digit rest _ isDigit _ =>
    rw [← digit?_eq_some_iff isBase] at isDigit
    intro sign starts
    obtain rfl := Option.some.inj starts
    cases sign <;> simp [Sign.byte, digit?] at isDigit

theorem Spells.startsUnmarked
    {digits : Bytes}
    {number : Nat}
    (spells : Spells 10 digits number) :
    StartsUnmarked digits := by
  obtain ⟨_, values, isDigits, _⟩ := spells
  rintro mark marks ⟨rest, rfl⟩
  -- The second byte of either mark would have to be a decimal digit.
  cases marks with
  | lower | upper =>
    obtain _ | ⟨_, _ | ⟨isDigit, _⟩⟩ := isDigits
    rw [← digit?_eq_some_iff (.inl rfl)] at isDigit
    cases isDigit

/-- The sign, the mark and the second sign are taken off a numeral one after
the other. -/
theorem Signed.exists_taken
    {sign second : Option Sign}
    {text : Bytes}
    {number : Nat}
    (signed : Signed sign second text number) :
    ∃ unsigned base digits, takeSign text = (Sign.isMinus sign, unsigned) ∧
      takeBase unsigned = (base, Sign.written second ++ digits) ∧
      IsBase base ∧ Spells base digits number := by
  obtain ⟨mark, base, digits, marks, spells, lone, rfl⟩ := signed
  have restUnmarked : mark = [] →
      StartsUnmarked (Sign.written second ++ digits) := by
    rintro rfl
    cases marks
    cases second with
    | none => exact spells.startsUnmarked
    | some second =>
      rintro mark marks ⟨rest, equal⟩
      cases marks <;> cases second <;> cases equal
  have restUnsigned : sign = none →
      StartsUnsigned (mark ++ (Sign.written second ++ digits)) := by
    rintro rfl
    cases marks with
    | decimal =>
      rw [lone rfl rfl]
      exact spells.startsUnsigned (.inl rfl)
    | lower => rintro (_ | _) <;> simp [Sign.byte]
    | upper => rintro (_ | _) <;> simp [Sign.byte]
  exact ⟨_, base, digits, takeSign_written restUnsigned,
    takeBase_marks marks restUnmarked, marks.isBase, spells⟩

/-- A numeral is read to the end: the number with the sign in front of its
digits has to be a value, which the sign in front of the whole may negate. -/
theorem read_of_signed
    {sign second : Option Sign}
    {text : Bytes}
    {number : Nat}
    (signed : Signed sign second text number) :
    read text = match inRange? (Sign.applied second number) with
      | some inner => negated (Sign.isMinus sign) inner
      | none => .error .invalid := by
  obtain ⟨unsigned, base, digits, sign_taken, base_taken, isBase, spells⟩ :=
    signed.exists_taken
  have second_taken : takeSign (Sign.written second ++ digits) =
      (Sign.isMinus second, digits) :=
    takeSign_written fun _ => spells.startsUnsigned isBase
  have magnitude := (magnitude?_eq_some_iff isBase).mpr spells
  have reads : signed? base (Sign.written second ++ digits) =
      inRange? (Sign.applied second number) := by
    unfold signed?
    rw [second_taken]
    dsimp only
    rw [magnitude]
    rfl
  unfold read
  rw [sign_taken]
  dsimp only
  rw [base_taken]
  dsimp only
  cases inner_eq : inRange? (Sign.applied second number) <;>
    simp only [reads, inner_eq]

/-- A text that is read, or of which the negation overflows, is a numeral,
perhaps with two signs. -/
theorem exists_signed_of_read
    {text : Bytes}
    (reads : read text ≠ .error .invalid) :
    ∃ sign second number, Signed sign second text number := by
  obtain ⟨sign, unsigned, rfl, lone⟩ := exists_written text
  obtain ⟨mark, base, unmarked, marks, rfl, restUnmarked⟩ :=
    exists_marks unsigned
  obtain ⟨second, digits, rfl, digitsUnsigned⟩ := exists_written unmarked
  unfold read at reads
  rw [takeSign_written lone] at reads
  dsimp only at reads
  rw [takeBase_marks marks restUnmarked] at reads
  dsimp only at reads
  unfold signed? at reads
  rw [takeSign_written digitsUnsigned] at reads
  cases magnitude : magnitude? base digits with
  | none => simp [magnitude] at reads
  | some number =>
    have spells := (magnitude?_eq_some_iff marks.isBase).mp magnitude
    refine ⟨sign, second, number, mark, base, digits, marks, spells, ?_, rfl⟩
    rintro rfl rfl
    have unsigned := lone rfl
    cases second with
    | none => rfl
    | some second => exact absurd rfl (unsigned second)

theorem inRange?_eq_some_iff {number value : Int} :
    inRange? number = some value ↔ number = value ∧ InRange value := by
  unfold inRange? InRange
  split
  · next inside =>
    rw [Option.some.injEq]
    exact ⟨fun equal => ⟨equal, equal ▸ inside⟩, And.left⟩
  · next outside =>
    constructor
    · nofun
    · rintro ⟨rfl, inside⟩
      exact absurd inside outside

theorem negated_eq_ok_iff {isNegative : Bool} {number value : Int} :
    negated isNegative number = .ok value ↔
      applySign isNegative number = value ∧ InRange value := by
  rw [← inRange?_eq_some_iff, negated]
  cases inRange? (applySign isNegative number) <;> simp

/-- Of all values only the least has no negation. -/
theorem negated_eq_overflow_iff
    {isNegative : Bool}
    {number : Int}
    (inside : InRange number) :
    negated isNegative number = .error .overflow ↔
      isNegative = true ∧ number = minValue := by
  unfold negated inRange? applySign
  unfold InRange minValue maxValue at *
  cases isNegative <;> split <;> simp_all <;> omega

/-- A numeral is read as what its signs make of its number, if the number is a
value with the sign in front of it and with both. -/
theorem read_of_signed_eq_ok_iff
    {sign second : Option Sign}
    {text : Bytes}
    {number : Nat}
    (signed : Signed sign second text number)
    {value : Int} :
    read text = .ok value ↔ InRange (Sign.applied second number) ∧
      Sign.applied sign (Sign.applied second number) = value ∧
        InRange value := by
  rw [read_of_signed signed]
  cases inner : inRange? (Sign.applied second number) with
  | none =>
    have outside : ¬ InRange (Sign.applied second number) := fun inside => by
      simp [inRange?_eq_some_iff.mpr ⟨rfl, inside⟩] at inner
    simp [outside]
  | some number =>
    obtain ⟨rfl, inside⟩ := inRange?_eq_some_iff.mp inner
    simp only [negated_eq_ok_iff, inside, true_and]
    rfl

/-- With one sign or none a numeral is read unless it is that of the least
value. -/
theorem read_of_signed_once
    {sign : Option Sign}
    {text : Bytes}
    {number : Nat}
    (signed : Signed sign none text number)
    {value : Int} :
    read text = .ok value ↔
      Sign.applied sign number = value ∧ InRange value ∧ value ≠ minValue := by
  have alone : Sign.applied none (number : Int) = number := rfl
  rw [read_of_signed_eq_ok_iff signed, alone]
  unfold InRange minValue maxValue Sign.applied applySign
  constructor
  · rintro ⟨inside, rfl, value_inside⟩
    refine ⟨rfl, value_inside, ?_⟩
    split <;> omega
  · rintro ⟨rfl, value_inside, notLeast⟩
    refine ⟨?_, rfl, value_inside⟩
    split at notLeast <;> simp_all
    omega

/-- A numeral with a second sign is no numeral of a value. -/
theorem not_writes_of_second
    {sign : Option Sign}
    {second : Sign}
    {text : Bytes}
    {number : Nat}
    (signed : Signed sign (some second) text number)
    (value : Int) :
    ¬Writes text value := by
  rintro ⟨otherSign, otherNumber, once, _⟩
  obtain ⟨unsigned, base, digits, sign_taken, base_taken, _⟩ :=
    signed.exists_taken
  obtain ⟨_, _, others, otherSign_taken, otherBase_taken, isBase, spells⟩ :=
    once.exists_taken
  rw [sign_taken, Prod.mk.injEq] at otherSign_taken
  rw [← otherSign_taken.2, base_taken, Prod.mk.injEq] at otherBase_taken
  have others_eq : second.byte :: digits = others := otherBase_taken.2
  exact spells.startsUnsigned isBase second (others_eq ▸ rfl)

theorem WritesTwice.not_writes
    {text : Bytes}
    {value : Int}
    (twice : WritesTwice text value)
    (other : Int) :
    ¬Writes text other := by
  obtain ⟨_, _, _, signed, _⟩ := twice
  exact not_writes_of_second signed other

/-- The texts that are read are the numerals of values but the least, and the
digits with two signs. -/
theorem read_eq_ok_iff {text : Bytes} {value : Int} :
    read text = .ok value ↔
      Writes text value ∧ value ≠ minValue ∨ WritesTwice text value := by
  constructor
  · intro reads
    have readable : read text ≠ .error .invalid := by simp [reads]
    obtain ⟨sign, second, number, signed⟩ := exists_signed_of_read readable
    cases second with
    | none =>
      obtain ⟨value_eq, inside, notLeast⟩ :=
        (read_of_signed_once signed).mp reads
      exact .inl ⟨⟨sign, number, signed, value_eq, inside⟩, notLeast⟩
    | some second =>
      exact .inr ⟨sign, second, number, signed,
        (read_of_signed_eq_ok_iff signed).mp reads⟩
  · rintro (⟨⟨sign, number, signed, value_eq, inside⟩, notLeast⟩ | twice)
    · exact (read_of_signed_once signed).mpr ⟨value_eq, inside, notLeast⟩
    · obtain ⟨sign, second, number, signed, valued⟩ := twice
      exact (read_of_signed_eq_ok_iff signed).mpr valued

/-- The negation overflows for the digits of the least value with two minus
signs, and for nothing else. -/
theorem read_eq_overflow_iff {text : Bytes} :
    read text = .error .overflow ↔ Overflows text := by
  constructor
  · intro overflows
    have readable : read text ≠ .error .invalid := by simp [overflows]
    obtain ⟨sign, second, number, signed⟩ := exists_signed_of_read readable
    rw [read_of_signed signed] at overflows
    cases inner : inRange? (Sign.applied second number) with
    | none => simp [inner] at overflows
    | some inside =>
      obtain ⟨rfl, inRange⟩ := inRange?_eq_some_iff.mp inner
      rw [inner] at overflows
      obtain ⟨minus, least⟩ := (negated_eq_overflow_iff inRange).mp overflows
      obtain rfl : sign = some .minus := by simpa [Sign.isMinus] using minus
      -- No other sign makes the least value of a natural number.
      unfold Sign.applied applySign minValue at least
      split at least
      · next secondMinus =>
        obtain rfl : second = some .minus := by
          simpa [Sign.isMinus] using secondMinus
        obtain rfl : number = 2 ^ 63 := by omega
        exact signed
      · omega
  · intro overflows
    rw [read_of_signed overflows]
    decide

end Numeral

/-! ## Values in decimal -/

namespace Numeral

/-- The decimal digits of a number spell it. -/
theorem spells_toDigits (number : Nat) :
    Spells 10 ((Nat.toDigits 10 number).map fun char =>
      UInt8.ofNat char.toNat) number := by
  have isDigit : ∀ digit : Fin 10,
      IsDigit 10 (UInt8.ofNat digit.val.digitChar.toNat) digit.val := by
    decide
  induction number using Nat.strongRecOn with
  | ind number hypothesis =>
    by_cases small : number < 10
    · rw [Nat.toDigits_of_lt_base small]
      exact ⟨by simp, [number], .cons (isDigit ⟨number, small⟩) .nil,
        by simp⟩
    · obtain ⟨_, values, isDigits, number_eq⟩ :=
        hypothesis (number / 10) (by omega)
      rw [Nat.toDigits_of_base_le (by omega) (by omega), List.map_append,
        List.map_singleton]
      have last := isDigit ⟨number % 10, by omega⟩
      refine ⟨by simp, values ++ [number % 10], ?_, ?_⟩
      · exact List.rel_append isDigits (.cons last .nil)
      · rw [List.reverse_append, List.reverse_singleton,
          List.singleton_append, Nat.ofDigits_cons, number_eq]
        omega

/-- A number in decimal, with or without a minus, is a numeral of it. -/
theorem exists_signed_toString (value : Int) :
    ∃ sign number,
      Signed sign none (Bytes.ofString (toString value)) number ∧
        Sign.applied sign number = value := by
  have digits_ascii : ∀ number : Nat, ∀ char ∈ Nat.toDigits 10 number,
      char.toNat < 128 := by
    intro number char member
    have isDigit := Nat.isDigit_of_mem_toDigits (by omega) (by omega) member
    simp only [Char.isDigit, ge_iff_le, Bool.and_eq_true,
      decide_eq_true_eq] at isDigit
    exact Nat.lt_of_le_of_lt isDigit.2 (by decide)
  cases value with
  | ofNat number =>
    refine ⟨none, number, ⟨[], 10, _, .decimal, spells_toDigits number,
      fun _ _ => rfl, ?_⟩, rfl⟩
    change Bytes.ofString (toString number) = _
    rw [Nat.toString_eq_ofList_toDigits,
      Bytes.ofString_ofList (digits_ascii number)]
    rfl
  | negSucc number =>
    refine ⟨some .minus, number + 1, ⟨[], 10, _, .decimal,
      spells_toDigits (number + 1), nofun, ?_⟩, rfl⟩
    change Bytes.ofString ("-" ++ toString (number + 1)) = _
    have written : "-" ++ toString (number + 1) =
        String.ofList ('-' :: Nat.toDigits 10 (number + 1)) := by
      rw [Nat.toString_eq_ofList_toDigits]
      exact String.toList_inj.mp (by simp)
    rw [written, Bytes.ofString_ofList]
    · rfl
    · exact List.forall_mem_cons.mpr ⟨by decide, digits_ascii _⟩

theorem writes_toString {value : Int} (inside : InRange value) :
    Writes (Bytes.ofString (toString value)) value := by
  obtain ⟨sign, number, signed, value_eq⟩ := exists_signed_toString value
  exact ⟨sign, number, signed, value_eq, inside⟩

/-- A text is read as it should be exactly if it is no numeral of the least value
and its second sign, if it has one, makes neither a value nor an overflow. -/
theorem reads_as_written_iff (text : Bytes) :
    (∀ value, read text = .ok value ↔ Writes text value) ∧
        ((∀ value, ¬Writes text value) → read text = .error .invalid) ↔
      ¬Writes text minValue ∧ (∀ value, ¬WritesTwice text value) ∧
        ¬Overflows text := by
  constructor
  · rintro ⟨reads, refuses⟩
    have leastRefused : read text ≠ .ok minValue := by
      intro least
      obtain ⟨_, notLeast⟩ | twice := read_eq_ok_iff.mp least
      · exact notLeast rfl
      · exact twice.not_writes minValue ((reads minValue).mp least)
    refine ⟨fun least => leastRefused ((reads minValue).mpr least), ?_, ?_⟩
    · intro value twice
      exact twice.not_writes value
        ((reads value).mp (read_eq_ok_iff.mpr (.inr twice)))
    · intro overflows
      cases (read_eq_overflow_iff.mpr overflows).symm.trans
        (refuses (not_writes_of_second overflows))
  · rintro ⟨notLeast, once, noOverflow⟩
    have reads : ∀ value, read text = .ok value ↔ Writes text value := by
      intro value
      rw [read_eq_ok_iff]
      constructor
      · rintro (⟨writes, _⟩ | twice)
        · exact writes
        · exact absurd twice (once value)
      · intro writes
        exact .inl ⟨writes, fun least => notLeast (least ▸ writes)⟩
    refine ⟨reads, fun noNumeral => ?_⟩
    match outcome : read text with
    | .ok value => exact absurd ((reads value).mp outcome) (noNumeral value)
    | .error .invalid => rfl
    | .error .overflow =>
      exact absurd (read_eq_overflow_iff.mp outcome) noOverflow

/-- Of all decimals of values, that of the least one alone is not read back. -/
theorem read_toString_iff {value : Int} (inside : InRange value) :
    read (Bytes.ofString (toString value)) = .ok value ↔ value ≠ minValue := by
  have writes := writes_toString inside
  rw [read_eq_ok_iff]
  constructor
  · rintro (⟨_, notLeast⟩ | twice)
    · exact notLeast
    · exact absurd writes (twice.not_writes value)
  · intro notLeast
    exact .inl ⟨writes, notLeast⟩

/-- A text is read as a value exactly if it is a numeral of it and it is not the
least, or digits with two signs that can be applied one after the other; and the
digits of the least value with two minus signs break the reading off.  So the
numerals of values are read and all other texts are refused exactly if the text
is none of these: no numeral of the least value, and no digits with two signs
that are read or overflow, which are no numerals of any value.  The decimal
digits of a value read back as it unless it is the least, and what is refused is
reported as it stands. -/
theorem read_of_signs (text : Bytes) :
    (∀ value, read text = .ok value ↔
      Writes text value ∧ value ≠ minValue ∨ WritesTwice text value) ∧
    (read text = .error .overflow ↔ Overflows text) ∧
    ((∀ value, read text = .ok value ↔ Writes text value) ∧
        ((∀ value, ¬Writes text value) → read text = .error .invalid) ↔
      ¬Writes text minValue ∧ (∀ value, ¬WritesTwice text value) ∧
        ¬Overflows text) ∧
    (∀ value, InRange value → text = Bytes.ofString (toString value) →
      Writes text value ∧ (read text = .ok value ↔ value ≠ minValue)) ∧
    ∀ part : Bytes, part.HoldsToken text →
      Line.readValue (some part) =
        match read text with
        | .ok value => .ok (some value)
        | .error .invalid => .error (.invalidValue text)
        | .error .overflow => .error .negationOverflow := by
  refine ⟨fun _ => read_eq_ok_iff, read_eq_overflow_iff,
    reads_as_written_iff text, ?_, ?_⟩
  · rintro value inside rfl
    exact ⟨writes_toString inside, read_toString_iff inside⟩
  · intro part holds
    unfold Line.readValue
    dsimp only
    rw [Line.singleToken_eq_ok_some_iff.mpr holds]
    rfl

/-- A sign between the mark and the digits, in capitals, and a minus where it
should be. -/
theorem read_of_signs_hexadecimal :
    (¬Writes (Bytes.ofString "0x-7F") (-127) ∧
      read (Bytes.ofString "0x-7F") = .ok (-127)) ∧
    Writes (Bytes.ofString (toString (-127))) (-127) ∧
    read (Bytes.ofString (toString (-127))) = .ok (-127) := by
  have spells : Spells 16 [55, 70] 127 :=
    ⟨by decide, [7, 15], .cons (by decide) (.cons (by decide) .nil), by decide⟩
  have signed : Signed none (some .minus) (Bytes.ofString "0x-7F") 127 :=
    ⟨[48, 120], 16, [55, 70], .lower, spells, nofun, by rw [Bytes.ofString_eq]; rfl⟩
  have twice : WritesTwice (Bytes.ofString "0x-7F") (-127) :=
    ⟨none, .minus, 127, signed, by decide, by decide, by decide⟩
  obtain ⟨reads, _⟩ := read_of_signs (Bytes.ofString "0x-7F")
  obtain ⟨_, _, _, decimal, _⟩ :=
    read_of_signs (Bytes.ofString (toString (-127)))
  obtain ⟨writes, readsBack⟩ := decimal (-127) (by decide) rfl
  exact ⟨⟨twice.not_writes _, (reads _).mpr (.inr twice)⟩, writes,
    readsBack.mpr (by decide)⟩

/-- Two signs are as good as none, the least value is refused, and negating it
again breaks the reading off. -/
theorem read_doubleMinus :
    (read (Bytes.ofString "--5") = .ok 5 ∧
      ∀ value, ¬Writes (Bytes.ofString "--5") value) ∧
    (Writes (Bytes.ofString (toString minValue)) minValue ∧
      read (Bytes.ofString (toString minValue)) = .error .invalid) ∧
    read (Bytes.ofString "-0x-8000000000000000") = .error .overflow := by
  have spells : Spells 10 [53] 5 :=
    ⟨by decide, [5], .cons (by decide) .nil, by decide⟩
  have signed :
      Signed (some .minus) (some .minus) (Bytes.ofString "--5") 5 :=
    ⟨[], 10, [53], .decimal, spells, nofun, by rw [Bytes.ofString_eq]; rfl⟩
  refine ⟨⟨?_, not_writes_of_second signed⟩,
    ⟨writes_toString (by decide), ?_⟩, ?_⟩
  · rw [read_of_signed signed]
    decide
  · rw [Bytes.ofString_eq]
    rfl
  · rw [Bytes.ofString_eq]
    rfl

end Numeral

end WordSwitch
