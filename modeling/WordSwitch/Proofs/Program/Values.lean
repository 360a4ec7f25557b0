import Mathlib.Data.List.Nodup
import Mathlib.Logic.Basic
import WordSwitch.Proofs.Chunk.Alignment
import WordSwitch.Program.Execution

/-!
# Constants and what is read

On every platform a constant has the value that is read where its bytes stand,
chunks of one width have different values, and the mask sets the case bit of
every byte that is read.  So the constants that label an edge have the value
that a switch reads exactly if the comparison of the node accepts what is read.
-/

namespace WordSwitch

namespace Program
namespace Platform

/-! ## Bytes in memory -/

theorem toNat_lt_two_pow (byte : UInt8) : byte.toNat < 2 ^ 8 :=
  byte.toNat_lt

theorem memory_lt (platform : Platform) (bytes : Bytes) :
    platform.memory bytes < 2 ^ (8 * bytes.length) := by
  induction bytes with
  | nil => exact Nat.one_pos
  | cons byte rest hypothesis =>
    have byte_lt := toNat_lt_two_pow byte
    have power : 2 ^ (8 * (byte :: rest).length) =
        2 ^ 8 * 2 ^ (8 * rest.length) := by
      rw [← Nat.pow_add, List.length_cons]
      congr 1
      omega
    rw [power, memory]
    split
    · rw [Nat.shiftLeft_eq]
      have product : (byte.toNat + 1) * 2 ^ (8 * rest.length) ≤
          2 ^ 8 * 2 ^ (8 * rest.length) :=
        Nat.mul_le_mul_right _ byte_lt
      rw [Nat.add_mul] at product
      omega
    · omega

/-- The bytes of a number in memory do not overlap. -/
theorem memory_cons (platform : Platform) (byte : UInt8) (rest : Bytes) :
    platform.memory (byte :: rest) =
      if platform.isBigEndian then
        byte.toNat <<< (8 * rest.length) ||| platform.memory rest
      else
        platform.memory rest <<< 8 ||| byte.toNat := by
  rw [memory]
  split
  · exact Nat.shiftLeft_add_eq_or_of_lt (platform.memory_lt rest) _
  · rw [← Nat.shiftLeft_add_eq_or_of_lt (toNat_lt_two_pow byte),
      Nat.shiftLeft_eq]
    omega

theorem memory_injective
    (platform : Platform)
    {first second : Bytes}
    (same_length : first.length = second.length)
    (equal : platform.memory first = platform.memory second) :
    first = second := by
  induction first generalizing second with
  | nil => exact (List.length_eq_zero_iff.mp same_length.symm).symm
  | cons byte rest hypothesis =>
    cases second with
    | nil => cases same_length
    | cons other others =>
      have rest_length : rest.length = others.length := Nat.succ.inj same_length
      have rest_lt := platform.memory_lt rest
      have others_lt := platform.memory_lt others
      have byte_lt := toNat_lt_two_pow byte
      have other_lt := toNat_lt_two_pow other
      rw [memory, memory, rest_length] at equal
      rw [rest_length] at rest_lt
      have parts : byte.toNat = other.toNat ∧
          platform.memory rest = platform.memory others := by
        split at equal
        · rw [Nat.shiftLeft_eq, Nat.shiftLeft_eq] at equal
          generalize 2 ^ (8 * others.length) = base at equal rest_lt others_lt
          have positive : 0 < base := by omega
          have high := congrArg (· / base) equal
          have low := congrArg (· % base) equal
          simp only [Nat.mul_add_mod_self_right, Nat.mod_eq_of_lt rest_lt,
            Nat.mod_eq_of_lt others_lt] at low
          simp only [Nat.add_comm _ (platform.memory _),
            Nat.add_mul_div_right _ _ positive, Nat.div_eq_of_lt rest_lt,
            Nat.div_eq_of_lt others_lt, Nat.zero_add] at high
          exact ⟨high, low⟩
        · omega
      rw [UInt8.toNat_inj.mp parts.1, hypothesis rest_length parts.2]

/-! ## Constants -/

theorem wideConstant_eq_memory
    (platform : Platform)
    {bits shift : Nat}
    {bytes : Bytes}
    (fits : shift + 8 * bytes.length = bits) :
    platform.wideConstant bits shift bytes =
      if platform.isBigEndian then platform.memory bytes
      else platform.memory bytes <<< shift := by
  induction bytes generalizing shift with
  | nil => simp [wideConstant, memory]
  | cons byte rest hypothesis =>
    rw [List.length_cons] at fits
    rw [wideConstant, hypothesis (by omega), placed, memory_cons]
    split
    · have place : bits - 8 - shift = 8 * rest.length := by omega
      rw [place]
    · rw [Nat.shiftLeft_or_distrib, ← Nat.shiftLeft_add, Nat.or_comm,
        Nat.add_comm 8 shift]

/-- A constant has the value that is read where its bytes stand. -/
theorem constant_eq_read (platform : Platform) (chunk : Bytes) :
    platform.constant chunk = platform.read chunk := by
  unfold constant read
  split
  · rfl
  · rw [wideConstant_eq_memory platform (Nat.zero_add _)]
    split
    · rfl
    · rfl

theorem character_injective
    (platform : Platform)
    {first second : UInt8}
    (equal : platform.character first = platform.character second) :
    first = second := by
  have first_lt := toNat_lt_two_pow first
  have second_lt := toNat_lt_two_pow second
  apply UInt8.toNat_inj.mp
  unfold character at equal
  split at equal <;> split at equal <;> omega

theorem read_of_length_ne_one
    (platform : Platform)
    {chunk : Bytes}
    (many : chunk.length ≠ 1) :
    platform.read chunk = platform.memory chunk := by
  unfold read
  split
  · exact absurd rfl many
  · rfl

theorem read_injective
    (platform : Platform)
    {first second : Bytes}
    (same_length : first.length = second.length)
    (equal : platform.read first = platform.read second) :
    first = second := by
  by_cases single : first.length = 1
  · obtain ⟨byte, rfl⟩ := List.length_eq_one_iff.mp single
    obtain ⟨other, rfl⟩ := List.length_eq_one_iff.mp (same_length ▸ single)
    rw [platform.character_injective equal]
  · rw [platform.read_of_length_ne_one single,
      platform.read_of_length_ne_one (same_length ▸ single)] at equal
    exact platform.memory_injective same_length equal

/-- Distinct chunks of one width are distinct constants. -/
theorem nodup_map_constant
    (platform : Platform)
    {width : Nat}
    {chunks : List Bytes}
    (width_eq : ∀ chunk ∈ chunks, chunk.length = width)
    (distinct : chunks.Nodup) :
    (chunks.map platform.constant).Nodup := by
  refine distinct.map_on ?_
  intro first inFirst second inSecond equal
  rw [constant_eq_read, constant_eq_read] at equal
  exact platform.read_injective
    ((width_eq first inFirst).trans (width_eq second inSecond).symm) equal

/-! ## The mask -/

theorem foldMask_lt (width : Nat) : Chunk.foldMask width < 2 ^ (8 * width) := by
  induction width with
  | zero => exact Nat.one_pos
  | succ width hypothesis =>
    have power : 2 ^ (8 * (width + 1)) = 2 ^ 8 * 2 ^ (8 * width) := by
      rw [← Nat.pow_add]
      congr 1
      omega
    have bit : Chunk.caseBit.toNat = 32 := rfl
    rw [power, Chunk.foldMask, Nat.shiftLeft_eq, bit]
    omega

theorem foldMask_succ_high (width : Nat) :
    Chunk.foldMask (width + 1) =
      Chunk.caseBit.toNat <<< (8 * width) ||| Chunk.foldMask width := by
  rw [← Nat.shiftLeft_add_eq_or_of_lt (foldMask_lt width), Chunk.foldMask,
    Nat.add_comm]

theorem foldMask_succ_low (width : Nat) :
    Chunk.foldMask (width + 1) =
      Chunk.foldMask width <<< 8 ||| Chunk.caseBit.toNat := by
  induction width with
  | zero => rfl
  | succ width hypothesis =>
    calc Chunk.foldMask (width + 1 + 1)
      _ = Chunk.caseBit.toNat <<< (8 * width + 8) |||
            Chunk.foldMask (width + 1) := foldMask_succ_high (width + 1)
      _ = Chunk.caseBit.toNat <<< (8 * width + 8) |||
            (Chunk.foldMask width <<< 8 ||| Chunk.caseBit.toNat) := by
        rw [hypothesis]
      _ = (Chunk.caseBit.toNat <<< (8 * width) ||| Chunk.foldMask width) <<<
            8 ||| Chunk.caseBit.toNat := by
        rw [Nat.shiftLeft_or_distrib, ← Nat.shiftLeft_add, Nat.or_assoc]
      _ = Chunk.foldMask (width + 1) <<< 8 ||| Chunk.caseBit.toNat := by
        rw [← foldMask_succ_high]

theorem memory_fold (platform : Platform) (chunk : Bytes) :
    platform.memory (Chunk.fold chunk) =
      platform.memory chunk ||| Chunk.foldMask chunk.length := by
  induction chunk with
  | nil => simp [Chunk.fold, memory, Chunk.foldMask]
  | cons byte rest hypothesis =>
    have split_fold : Chunk.fold (byte :: rest) =
        (byte ||| Chunk.caseBit) :: Chunk.fold rest := rfl
    have same_length : (Chunk.fold rest).length = rest.length :=
      List.length_map _
    rw [split_fold, memory_cons, memory_cons, hypothesis, same_length,
      UInt8.toNat_or, List.length_cons]
    split
    · rw [foldMask_succ_high, Nat.shiftLeft_or_distrib]
      ac_rfl
    · rw [foldMask_succ_low, Nat.shiftLeft_or_distrib]
      ac_rfl

theorem character_fold (platform : Platform) (byte : UInt8) :
    platform.character (byte ||| Chunk.caseBit) =
      platform.character byte ||| Chunk.caseBit.toNat := by
  have masked : ∀ isSigned, ∀ other : UInt8,
      character ⟨false, isSigned⟩ (other ||| Chunk.caseBit) =
        character ⟨false, isSigned⟩ other ||| Chunk.caseBit.toNat := by
    intro isSigned
    cases isSigned
    · exact Byte.forall_of_codes (by decide +kernel)
    · exact Byte.forall_of_codes (by decide +kernel)
  exact masked platform.isCharSigned byte

/-- The mask sets the case bit of every byte that is read. -/
theorem read_fold (platform : Platform) (chunk : Bytes) :
    platform.read (Chunk.fold chunk) =
      platform.read chunk ||| Chunk.foldMask chunk.length := by
  by_cases single : chunk.length = 1
  · obtain ⟨byte, rfl⟩ := List.length_eq_one_iff.mp single
    exact platform.character_fold byte
  · have same_length : (Chunk.fold chunk).length = chunk.length :=
      List.length_map _
    rw [platform.read_of_length_ne_one single,
      platform.read_of_length_ne_one (same_length ▸ single), memory_fold]

end Platform
end Program

end WordSwitch
