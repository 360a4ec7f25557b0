import Mathlib.Data.List.Nodup
import WordSwitch.Proofs.Chunk.Variants
import WordSwitch.Proofs.Program.Values
import WordSwitch.Program.Code

/-!
# The constants that label an edge

The constants of an edge are the chunks that the comparison of the node accepts
for it, folded if the comparison folds.  All constants of one switch have
different values.
-/

namespace WordSwitch

namespace Chunk

/-- If both cases are spelled out, what agrees without regard to case is
accepted. -/
theorem accepts_spelledOut_iff {read key : Bytes} :
    Comparison.spelledOut.accepts read key = true ↔
      Bytes.lower read = Bytes.lower key := by
  induction read generalizing key with
  | nil => cases key <;> simp [Comparison.accepts, Bytes.lower]
  | cons first later hypothesis =>
    cases key with
    | nil => simp [Comparison.accepts, Bytes.lower]
    | cons byte rest =>
      rw [Comparison.accepts, Bool.and_eq_true, hypothesis,
        acceptsByte_spelledOut_iff_lower_eq]
      simp [Bytes.lower]

/-- The variants of a chunk are what is accepted for it when both cases are
spelled out. -/
theorem mem_caseVariants_iff {key read : Bytes} :
    read ∈ caseVariants key ↔
      Comparison.spelledOut.accepts read key = true :=
  mem_caseVariants.trans accepts_spelledOut_iff.symm

/-- The fold accepts what it sends where it sends the key. -/
theorem accepts_folded_iff {read key : Bytes} :
    Comparison.folded.accepts read key = true ↔ fold read = fold key := by
  induction read generalizing key with
  | nil => cases key <;> simp [Comparison.accepts, fold]
  | cons first later hypothesis =>
    cases key with
    | nil => simp [Comparison.accepts, fold]
    | cons byte rest =>
      rw [Comparison.accepts, Bool.and_eq_true, hypothesis,
        Comparison.acceptsByte, beq_iff_eq]
      simp [fold]

@[simp] theorem length_fold (chunk : Bytes) :
    (fold chunk).length = chunk.length :=
  List.length_map _

namespace Comparison

/-- The form in which a comparison sees what is read. -/
def seen (comparison : Comparison) (read : Bytes) : Bytes :=
  if comparison = .folded then fold read else read

@[simp] theorem length_seen (comparison : Comparison) (read : Bytes) :
    (comparison.seen read).length = read.length := by
  unfold seen
  split
  · exact length_fold read
  · rfl

end Comparison

theorem length_eq_of_accepts
    {comparison : Comparison}
    {read key : Bytes}
    (accepts : comparison.accepts read key = true) :
    read.length = key.length := by
  induction read generalizing key with
  | nil => cases key <;> simp_all [Comparison.accepts]
  | cons first later hypothesis =>
    cases key with
    | nil => simp [Comparison.accepts] at accepts
    | cons byte rest =>
      rw [Comparison.accepts, Bool.and_eq_true] at accepts
      simp [hypothesis accepts.2]

end Chunk

namespace Program

open Chunk

theorem length_of_mem_constants
    {comparison : Comparison}
    {key constant : Bytes}
    (listed : constant ∈ constants comparison key) :
    constant.length = key.length := by
  cases comparison with
  | exact => rw [List.mem_singleton.mp listed]
  | folded => rw [List.mem_singleton.mp listed, length_fold]
  | spelledOut =>
    exact length_eq_of_accepts (mem_caseVariants_iff.mp listed)

theorem nodup_constants (comparison : Comparison) (key : Bytes) :
    (constants comparison key).Nodup := by
  cases comparison with
  | exact => exact List.nodup_singleton _
  | folded => exact List.nodup_singleton _
  | spelledOut => exact nodup_caseVariants key

/-- The value that is compared with the constants of a switch when some bytes
are read. -/
def Platform.subjectValue
    (platform : Platform)
    (comparison : Comparison)
    (read : Bytes) :
    Nat :=
  if comparison = .folded then platform.read read ||| foldMask read.length
  else platform.read read

theorem Platform.subjectValue_eq_read
    (platform : Platform)
    (comparison : Comparison)
    (read : Bytes) :
    platform.subjectValue comparison read =
      platform.read (comparison.seen read) := by
  unfold subjectValue Comparison.seen
  split
  · exact (platform.read_fold read).symm
  · rfl

/-- No carry and no truncation merges what a comparison tells apart. -/
theorem Platform.subjectValue_eq_iff
    (platform : Platform)
    (comparison : Comparison)
    {first second : Bytes}
    (same_length : first.length = second.length) :
    platform.subjectValue comparison first =
        platform.subjectValue comparison second ↔
      comparison.seen first = comparison.seen second := by
  rw [subjectValue_eq_read, subjectValue_eq_read]
  exact ⟨platform.read_injective (by simp [same_length]), congrArg platform.read⟩

/-- A node accepts what it sees as one of the constants. -/
theorem seen_mem_constants_iff {comparison : Comparison} {key read : Bytes} :
    comparison.seen read ∈ constants comparison key ↔
      comparison.accepts read key = true := by
  cases comparison with
  | exact => exact List.mem_singleton.trans accepts_exact_iff.symm
  | folded => exact List.mem_singleton.trans accepts_folded_iff.symm
  | spelledOut => exact mem_caseVariants_iff

/-- A constant of an edge has the value of the switch exactly if the node
accepts what is read for the edge. -/
theorem exists_constant_iff
    (platform : Platform)
    {comparison : Comparison}
    {key read : Bytes}
    (same_length : read.length = key.length) :
    (∃ constant ∈ constants comparison key,
      platform.constant constant = platform.subjectValue comparison read) ↔
      comparison.accepts read key = true := by
  rw [← seen_mem_constants_iff, platform.subjectValue_eq_read]
  simp only [platform.constant_eq_read]
  constructor
  · rintro ⟨constant, listed, equal⟩
    have constant_length : constant.length = (comparison.seen read).length := by
      rw [length_of_mem_constants listed, Comparison.length_seen, same_length]
    rwa [← platform.read_injective constant_length equal]
  · exact fun listed => ⟨_, listed, rfl⟩

/-- A constant is a form of the chunk of its edge and of no other. -/
theorem compared_of_mem_constants
    {ignoreCase : Bool}
    {limit : Nat}
    {chunks : List Bytes}
    (aligned : Aligned ignoreCase limit chunks)
    {chunk constant : Bytes}
    (inChunks : chunk ∈ chunks)
    (listed : constant ∈
      constants (.ofKeys ignoreCase chunks) chunk) :
    compared ignoreCase constant = chunk := by
  rw [← aligned.accepts_iff inChunks]
  cases mode : Comparison.ofKeys ignoreCase chunks with
  | exact =>
    rw [mode] at listed
    exact accepts_exact_iff.mpr (List.mem_singleton.mp listed)
  | folded =>
    rw [mode] at listed
    rw [accepts_folded_iff, List.mem_singleton.mp listed]
    simp [fold, UInt8.or_assoc]
  | spelledOut =>
    rw [mode] at listed
    exact mem_caseVariants_iff.mp listed

/-- All constants that label the edges of a node are distinct. -/
theorem nodup_flatMap_constants
    {ignoreCase : Bool}
    {limit : Nat}
    {chunks : List Bytes}
    (aligned : Aligned ignoreCase limit chunks) :
    (chunks.flatMap (constants (.ofKeys ignoreCase chunks))).Nodup := by
  rw [List.nodup_flatMap]
  refine ⟨fun chunk _ => nodup_constants _ chunk, ?_⟩
  refine aligned.distinct.pairwise_of_forall_ne ?_
  intro first first_mem second second_mem different constant inFirst inSecond
  apply different
  rw [← compared_of_mem_constants aligned first_mem inFirst,
    ← compared_of_mem_constants aligned second_mem inSecond]

end Program
end WordSwitch
