import Mathlib.Algebra.GroupWithZero.Nat
import Mathlib.Data.List.Nodup
import WordSwitch.Proofs.Chunk.Case

/-!
# Chunks in every case

The variants of a chunk are all chunks that agree with it without regard to
case.  There are two for every letter, and they ascend, since the upper case of
a letter stands before the lower case.  Lengthening the spellings of what was
read byte by byte gives the same list, in which sorting changes nothing.
-/

namespace WordSwitch

namespace Byte

/-- Two bytes agree without regard to case if one is a case of the other. -/
theorem lower_eq_lower_iff
    {read key : UInt8}
    (letter : isLetter key = true) :
    lower read = lower key ↔ read = upper key ∨ read = lower key := by
  have cases_of_letter : ∀ byte : UInt8, isLetter (lower byte) = true →
      byte = upper (lower byte) ∨ byte = lower byte :=
    forall_of_codes (by decide +kernel)
  have ofKey : ∀ byte : UInt8, isLetter byte = true →
      isLetter (lower byte) = true ∧ upper (lower byte) = upper byte ∧
        lower (upper byte) = lower byte ∧
        lower (lower byte) = lower byte :=
    forall_of_codes (by decide +kernel)
  obtain ⟨lowerLetter, upper_lower, lower_upper, lower_lower⟩ :=
    ofKey key letter
  constructor
  · intro equal
    rw [← equal] at lowerLetter upper_lower ⊢
    rw [← upper_lower]
    exact cases_of_letter read lowerLetter
  · rintro (rfl | rfl)
    · exact lower_upper
    · exact lower_lower

theorem upper_lt_lower {byte : UInt8} (letter : isLetter byte = true) :
    upper byte < lower byte := by
  have less : ∀ other : UInt8, isLetter other = true →
      upper other < lower other :=
    forall_of_codes (by decide +kernel)
  exact less byte letter

end Byte

namespace Chunk

/-- The variants of a chunk are what agrees with it without regard to case. -/
theorem mem_caseVariants {key read : Bytes} :
    read ∈ caseVariants key ↔ Bytes.lower read = Bytes.lower key := by
  induction key generalizing read with
  | nil => simp [caseVariants, Bytes.lower]
  | cons byte rest hypothesis =>
    cases read with
    | nil =>
      rw [caseVariants]
      split <;> simp [Bytes.lower]
    | cons first later =>
      have mem_extended : ∀ form : UInt8,
          first :: later ∈ (caseVariants rest).map (form :: ·) ↔
            first = form ∧ Bytes.lower later = Bytes.lower rest := by
        intro form
        rw [← hypothesis, List.mem_map]
        constructor
        · rintro ⟨tail, inTails, equal⟩
          obtain ⟨rfl, rfl⟩ := List.cons.inj equal
          exact ⟨rfl, inTails⟩
        · rintro ⟨rfl, inTails⟩
          exact ⟨later, inTails, rfl⟩
      have lower_cons :
          Bytes.lower (first :: later) = Bytes.lower (byte :: rest) ↔
            Byte.lower first = Byte.lower byte ∧
              Bytes.lower later = Bytes.lower rest := List.cons_eq_cons
      rw [lower_cons, caseVariants]
      split
      · next letter =>
        rw [List.mem_append, mem_extended, mem_extended, ← or_and_right,
          Byte.lower_eq_lower_iff letter]
      · next other =>
        rw [mem_extended,
          Byte.lower_eq_lower_iff_of_not_letter (Bool.not_eq_true _ ▸ other)]

/-- The variants of a chunk ascend. -/
theorem pairwise_caseVariants (key : Bytes) :
    (caseVariants key).Pairwise (· < ·) := by
  induction key with
  | nil => exact List.pairwise_singleton _ _
  | cons byte rest hypothesis =>
    have extended : ∀ first : UInt8,
        ((caseVariants rest).map (first :: ·)).Pairwise (· < ·) :=
      fun first => List.pairwise_map.mpr (hypothesis.imp fun before =>
        List.cons_lt_cons_iff.mpr (Or.inr ⟨rfl, before⟩))
    rw [caseVariants]
    split
    · next letter =>
      refine List.pairwise_append.mpr ⟨extended _, extended _, ?_⟩
      intro variant inUpper other inLower
      obtain ⟨tail, _, rfl⟩ := List.mem_map.mp inUpper
      obtain ⟨otherTail, _, rfl⟩ := List.mem_map.mp inLower
      exact List.cons_lt_cons_iff.mpr (Or.inl (Byte.upper_lt_lower letter))
    · exact extended byte

theorem nodup_caseVariants (key : Bytes) : (caseVariants key).Nodup :=
  (pairwise_caseVariants key).nodup

/-- Every letter doubles the number of variants. -/
theorem length_caseVariants (key : Bytes) :
    (caseVariants key).length = 2 ^ key.countP Byte.isLetter := by
  induction key with
  | nil => rfl
  | cons byte rest hypothesis =>
    rw [caseVariants, List.countP_cons]
    split
    · rw [List.length_append, List.length_map, List.length_map, hypothesis,
        Nat.pow_succ, Nat.mul_two]
    · rw [List.length_map, hypothesis, Nat.add_zero]

/-! ## Byte by byte -/

/-- Put a byte behind every start, in each of its cases if it is a letter. -/
def spellOut (starts : List Bytes) (byte : UInt8) : List Bytes :=
  if Byte.isLetter byte then
    starts.flatMap fun start =>
      [start ++ [Byte.upper byte], start ++ [Byte.lower byte]]
  else
    starts.map (· ++ [byte])

/-- The starts that are there after the last byte of a chunk, sorted. -/
def spelledOut (key : Bytes) : List Bytes :=
  (key.foldl spellOut [[]]).mergeSort fun first second =>
    decide (¬second < first)

/-- Spelling out a chunk puts its variants behind every start. -/
theorem foldl_spellOut (key : Bytes) (starts : List Bytes) :
    key.foldl spellOut starts =
      starts.flatMap fun start => (caseVariants key).map (start ++ ·) := by
  induction key generalizing starts with
  | nil => simp [caseVariants]
  | cons byte rest hypothesis =>
    -- Both forms of a letter are starts for what follows it.
    rw [List.foldl_cons, hypothesis, spellOut, caseVariants]
    split
    · rw [List.flatMap_assoc]
      refine List.flatMap_congr fun start _ => ?_
      simp [Function.comp_def]
    · rw [List.flatMap_map]
      refine List.flatMap_congr fun start _ => ?_
      simp

/-- Spelling out gives the variants, and finds them sorted. -/
theorem spelledOut_eq_caseVariants (key : Bytes) :
    spelledOut key = caseVariants key := by
  have ascends : (caseVariants key).Pairwise fun first second =>
      decide (¬second < first) = true :=
    (pairwise_caseVariants key).imp fun before =>
      decide_eq_true (List.lt_asymm before)
  have starts_eq : key.foldl spellOut [[]] = caseVariants key := by
    rw [foldl_spellOut, List.flatMap_singleton]
    exact List.map_id _
  rw [spelledOut, starts_eq, List.mergeSort_of_pairwise ascends]

/-- Spelling out a chunk lists, in strictly ascending order, all that has its
length and agrees with it without regard to case, two for every letter. -/
theorem caseVariants_exhaustive (key : Bytes) :
    spelledOut key = caseVariants key ∧
    (caseVariants key).Pairwise (· < ·) ∧
    (caseVariants key).length = 2 ^ key.countP Byte.isLetter ∧
    ∀ read, read ∈ caseVariants key ↔
      read.length = key.length ∧ Bytes.lower read = Bytes.lower key := by
  refine ⟨spelledOut_eq_caseVariants key, pairwise_caseVariants key,
    length_caseVariants key, ?_⟩
  intro read
  have same_length : Bytes.lower read = Bytes.lower key →
      read.length = key.length := by
    intro equal
    rw [← Bytes.length_lower read, equal, Bytes.length_lower]
  rw [mem_caseVariants]
  exact ⟨fun equal => ⟨same_length equal, equal⟩, And.right⟩

example :
    caseVariants [97, 45, 66] =
      [[65, 45, 66], [65, 45, 98], [97, 45, 66], [97, 45, 98]] := by
  decide

end Chunk
end WordSwitch
