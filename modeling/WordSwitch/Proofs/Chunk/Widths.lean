import Mathlib.Data.List.Basic
import WordSwitch.Proofs.Chunk.Cut

/-!
# The widths of a cut

How a word is cut depends on its length alone.  The widths of its chunks do not
increase, and they add up to the length.  A shorter length that is the sum of
the first of these widths is cut into just these, so words of all lengths are
cut at the same places as long as they have bytes left.
-/

namespace WordSwitch
namespace Chunk

/-- The widths of the chunks into which that many bytes are cut. -/
def cutWidths (maxWidth length : Nat) : List Nat :=
  if 0 < length then
    readWidth length maxWidth ::
      cutWidths maxWidth (length - readWidth length maxWidth)
  else
    []
termination_by length
decreasing_by
  have positive := readWidth_pos length maxWidth
  omega

@[simp] theorem cutWidths_zero (maxWidth : Nat) : cutWidths maxWidth 0 = [] := by
  rw [cutWidths, if_neg (Nat.lt_irrefl 0)]

theorem cutWidths_of_pos
    (maxWidth : Nat)
    {length : Nat}
    (positive : 0 < length) :
    cutWidths maxWidth length =
      readWidth length maxWidth ::
        cutWidths maxWidth (length - readWidth length maxWidth) := by
  rw [cutWidths, if_pos positive]

/-- How a word is cut depends on its length. -/
theorem map_length_cut (maxWidth : Nat) (word : Bytes) :
    (cut maxWidth word).map List.length = cutWidths maxWidth word.length := by
  generalize pieces_eq : cut maxWidth word = pieces
  induction pieces generalizing word with
  | nil =>
    have word_eq := flatten_cut maxWidth word
    rw [pieces_eq, List.flatten_nil] at word_eq
    rw [← word_eq, List.length_nil, cutWidths_zero, List.map_nil]
  | cons chunk path hypothesis =>
    have word_eq := flatten_cut maxWidth word
    rw [pieces_eq, List.flatten_cons] at word_eq
    subst word_eq
    obtain ⟨width_eq, path_eq⟩ := of_cut_append pieces_eq
    have positive := readWidth_pos (chunk ++ path.flatten).length maxWidth
    have within : 0 < (chunk ++ path.flatten).length := by
      rw [List.length_append]
      omega
    rw [cutWidths_of_pos maxWidth within, List.map_cons, ← width_eq,
      hypothesis path.flatten path_eq, List.length_append,
      Nat.add_sub_cancel_left]

theorem sum_cutWidths (maxWidth length : Nat) :
    (cutWidths maxWidth length).sum = length := by
  fun_induction cutWidths maxWidth length with
  | case1 length positive hypothesis =>
    have within := readWidth_le_remaining positive maxWidth
    rw [List.sum_cons, hypothesis]
    omega
  | case2 length zero => exact (Nat.eq_zero_of_not_pos zero).symm

theorem readableWithin_of_mem_cutWidths
    {maxWidth length width : Nat}
    (positive : 0 < maxWidth)
    (listed : width ∈ cutWidths maxWidth length) :
    ReadableWithin maxWidth width := by
  fun_induction cutWidths maxWidth length with
  | case1 length _ hypothesis =>
    rcases List.mem_cons.mp listed with rfl | later
    · exact readableWithin_readWidth positive length
    · exact hypothesis later
  | case2 => cases listed

/-- The chunks of a cut can be read at once. -/
theorem readable_of_mem_cut
    {maxWidth : Nat}
    (positive : 0 < maxWidth)
    {word chunk : Bytes}
    (member : chunk ∈ cut maxWidth word) :
    ReadableWithin maxWidth chunk.length := by
  have listed : chunk.length ∈ cutWidths maxWidth word.length := by
    rw [← map_length_cut]
    exact List.mem_map_of_mem member
  exact readableWithin_of_mem_cutWidths positive listed

theorem le_readWidth_of_mem_cutWidths
    {maxWidth length width : Nat}
    (listed : width ∈ cutWidths maxWidth length) :
    width ≤ readWidth length maxWidth := by
  fun_induction cutWidths maxWidth length with
  | case1 length _ hypothesis =>
    rcases List.mem_cons.mp listed with rfl | later
    · exact Nat.le_refl _
    · exact Nat.le_trans (hypothesis later)
        (readWidth_mono maxWidth (Nat.sub_le _ _))
  | case2 => cases listed

/-- The chunks of a cut do not get wider. -/
theorem pairwise_cutWidths (maxWidth length : Nat) :
    (cutWidths maxWidth length).Pairwise (· ≥ ·) := by
  fun_induction cutWidths maxWidth length with
  | case1 length _ hypothesis =>
    refine List.pairwise_cons.mpr ⟨fun width listed => ?_, hypothesis⟩
    exact Nat.le_trans (le_readWidth_of_mem_cutWidths listed)
      (readWidth_mono maxWidth (Nat.sub_le _ _))
  | case2 => exact List.Pairwise.nil

/-! ## Prefixes -/

/-- The read width stays the same until fewer bytes than that are left. -/
theorem readWidth_eq_of_le
    {maxWidth fewer more : Nat}
    (enough : readWidth more maxWidth ≤ fewer)
    (le : fewer ≤ more) :
    readWidth fewer maxWidth = readWidth more maxWidth := by
  refine Nat.le_antisymm (readWidth_mono maxWidth le) ?_
  have itself : readWidth (readWidth more maxWidth) maxWidth =
      readWidth more maxWidth := by
    rcases Nat.eq_zero_or_pos maxWidth with rfl | positive
    · simp [readWidth]
    · exact readWidth_of_readable (readableWithin_readWidth positive more)
  rw [← itself]
  exact readWidth_mono maxWidth enough

/-- The first widths of a cut are those into which their sum is cut. -/
theorem cutWidths_sum_of_prefix
    {maxWidth length : Nat}
    {front : List Nat}
    (begins : front <+: cutWidths maxWidth length) :
    cutWidths maxWidth front.sum = front := by
  induction front generalizing length with
  | nil => exact cutWidths_zero maxWidth
  | cons width front hypothesis =>
    have positive : 0 < length := by
      by_contra zero
      rw [Nat.eq_zero_of_not_pos zero, cutWidths_zero] at begins
      cases List.prefix_nil.mp begins
    rw [cutWidths_of_pos maxWidth positive, List.cons_prefix_cons] at begins
    obtain ⟨rfl, later⟩ := begins
    have within := readWidth_le_remaining positive maxWidth
    have sum_le : front.sum ≤ length - readWidth length maxWidth := by
      obtain ⟨rest, rest_eq⟩ := later
      rw [← sum_cutWidths maxWidth (length - _), ← rest_eq, List.sum_append]
      exact Nat.le_add_right _ _
    -- The front is at least as long as its first chunk, and not longer than all
    -- of the word, so the read at its start is the same.
    have enough : readWidth length maxWidth ≤
        readWidth length maxWidth + front.sum := Nat.le_add_right _ _
    have same := readWidth_eq_of_le enough (by omega)
    have width_pos := readWidth_pos length maxWidth
    rw [List.sum_cons, cutWidths_of_pos maxWidth (by omega), same,
      Nat.add_sub_cancel_left, hypothesis later]

/-- The first chunks of a cut are those into which what they spell is cut. -/
theorem cut_flatten_of_prefix
    {maxWidth : Nat}
    {word : Bytes}
    {front : List Bytes}
    (begins : front <+: cut maxWidth word) :
    cut maxWidth front.flatten = front := by
  have widths := begins.map List.length
  rw [map_length_cut] at widths
  refine List.eq_iff_flatten_eq.mpr ⟨flatten_cut maxWidth _, ?_⟩
  rw [map_length_cut, List.length_flatten, cutWidths_sum_of_prefix widths]

/-- What holds of the cut of every word. -/
structure CanonicalCut (maxWidth : Nat) (word : Bytes) : Prop where
  /-- The chunks make up the word. -/
  whole : (cut maxWidth word).flatten = word
  nonempty : ∀ chunk ∈ cut maxWidth word, chunk ≠ []
  /-- How the word is cut depends on its length. -/
  byLength :
    (cut maxWidth word).map List.length = cutWidths maxWidth word.length
  /-- All widths are powers of two within the limit. -/
  readable : ∀ width ∈ cutWidths maxWidth word.length,
    width ≤ maxWidth ∧ ∃ exponent, width = 2 ^ exponent
  descending : (cutWidths maxWidth word.length).Pairwise (· ≥ ·)
  total : (cutWidths maxWidth word.length).sum = word.length
  /-- The first widths are those of a shorter length. -/
  shorter : ∀ front, front <+: cutWidths maxWidth word.length →
    cutWidths maxWidth front.sum = front
  /-- The first chunks are those of the shorter word that they make up. -/
  beginnings : ∀ front, front <+: cut maxWidth word →
    cut maxWidth front.flatten = front

theorem canonicalCut
    {maxWidth : Nat}
    (positive : 0 < maxWidth)
    (word : Bytes) :
    CanonicalCut maxWidth word where
  whole := flatten_cut maxWidth word
  nonempty := fun _ listed => (mem_cut listed).1
  byLength := map_length_cut maxWidth word
  readable := fun _ => readableWithin_of_mem_cutWidths positive
  descending := pairwise_cutWidths maxWidth word.length
  total := sum_cutWidths maxWidth word.length
  shorter := fun _ => cutWidths_sum_of_prefix
  beginnings := fun _ => cut_flatten_of_prefix

example : (cut 8 (List.replicate 13 97)).map List.length = [8, 4, 1] := by
  decide

end Chunk
end WordSwitch
