import Mathlib.Algebra.GroupWithZero.Nat
import WordSwitch.Chunk.Width

/-!
# The chunks of a cut

A read width is a power of two within both bounds.  The chunks into which a
word is cut hold bytes of the word, and none of them is empty.
-/

namespace WordSwitch
namespace Chunk

theorem readWidth_eq_two_pow (remaining maxWidth : Nat) :
    readWidth remaining maxWidth =
      2 ^ (max (min remaining maxWidth) 1).log2 := by
  rw [readWidth, Nat.one_shiftLeft]

theorem mem_readableWidths_iff {width : Nat} :
    width ∈ readableWidths ↔
      width = 1 ∨ width = 2 ∨ width = 4 ∨ width = 8 := by
  simp [readableWidths]

theorem le_of_mem_readableWidths
    {width : Nat}
    (readable : width ∈ readableWidths) :
    width ≤ 8 := by
  have widths := mem_readableWidths_iff.mp readable
  omega

theorem one_lt_of_mem_readableWidths
    {width : Nat}
    (readable : width ∈ readableWidths)
    (many : width ≠ 1) :
    1 < width := by
  have widths := mem_readableWidths_iff.mp readable
  omega

/-- A width that a configuration with some limit may read. -/
def ReadableWithin (limit width : Nat) : Prop :=
  width ≤ limit ∧ ∃ exponent, width = 2 ^ exponent

theorem ReadableWithin.pos
    {limit width : Nat}
    (readable : ReadableWithin limit width) :
    0 < width := by
  obtain ⟨_, exponent, rfl⟩ := readable
  exact Nat.two_pow_pos exponent

theorem readableWithin_readWidth
    {maxWidth : Nat}
    (positive : 0 < maxWidth)
    (remaining : Nat) :
    ReadableWithin maxWidth (readWidth remaining maxWidth) := by
  have bound := readWidth_le remaining maxWidth
  exact ⟨by omega, _, readWidth_eq_two_pow remaining maxWidth⟩

/-- A width that can be read is the read width of as many bytes. -/
theorem readWidth_of_readable
    {limit width : Nat}
    (readable : ReadableWithin limit width) :
    readWidth width limit = width := by
  have positive := readable.pos
  obtain ⟨within, exponent, rfl⟩ := readable
  rw [readWidth_eq_two_pow, Nat.min_eq_left within, Nat.max_eq_left positive,
    Nat.log2_two_pow]

/-- More bytes are not read in narrower chunks. -/
theorem readWidth_mono
    (maxWidth : Nat)
    {fewer more : Nat}
    (le : fewer ≤ more) :
    readWidth fewer maxWidth ≤ readWidth more maxWidth := by
  rw [readWidth_eq_two_pow, readWidth_eq_two_pow]
  refine Nat.pow_le_pow_right Nat.two_pos ?_
  have least : 2 ^ (max (min fewer maxWidth) 1).log2 ≤
      max (min fewer maxWidth) 1 := Nat.log2_self_le (by omega)
  rw [Nat.le_log2 (by omega)]
  omega

theorem mem_cutWithin
    {maxWidth bound : Nat}
    {word chunk : Bytes}
    (member : chunk ∈ cutWithin maxWidth bound word) :
    chunk ≠ [] ∧ ∀ byte ∈ chunk, byte ∈ word := by
  induction bound generalizing word with
  | zero => simp [cutWithin] at member
  | succ bound hypothesis =>
    cases word with
    | nil => simp [cutWithin] at member
    | cons first rest =>
      rw [cutWithin, List.mem_cons] at member
      rcases member with rfl | later
      · constructor
        · have positive := readWidth_pos (first :: rest).length maxWidth
          intro empty
          rcases List.take_eq_nil_iff.mp empty with zero | impossible
          · omega
          · simp at impossible
        · intro byte present
          exact List.mem_of_mem_take present
      · obtain ⟨nonempty, bytes⟩ := hypothesis later
        refine ⟨nonempty, ?_⟩
        intro byte present
        exact List.mem_of_mem_drop (bytes byte present)

/-- The chunks of a cut are not empty and hold bytes of the word. -/
theorem mem_cut
    {maxWidth : Nat}
    {word chunk : Bytes}
    (member : chunk ∈ cut maxWidth word) :
    chunk ≠ [] ∧ ∀ byte ∈ chunk, byte ∈ word :=
  mem_cutWithin member

@[simp] theorem cut_nil (maxWidth : Nat) : cut maxWidth [] = [] := rfl

theorem cut_injective (maxWidth : Nat) : Function.Injective (cut maxWidth) := by
  intro first second equal
  rw [← flatten_cut maxWidth first, equal, flatten_cut]

theorem length_drop_readWidth_lt
    (maxWidth : Nat)
    {word : Bytes}
    (nonempty : word ≠ []) :
    (word.drop (readWidth word.length maxWidth)).length < word.length := by
  have positive := readWidth_pos word.length maxWidth
  have bytes := List.length_pos_iff.mpr nonempty
  rw [List.length_drop]
  omega

/-- The bound does not matter as long as it is large enough. -/
theorem cutWithin_eq_cut
    {maxWidth bound : Nat}
    {word : Bytes}
    (within : word.length ≤ bound) :
    cutWithin maxWidth bound word = cut maxWidth word := by
  unfold cut
  generalize limit_eq : word.length = limit
  have enough : word.length ≤ limit := Nat.le_of_eq limit_eq
  clear limit_eq
  induction bound generalizing word limit with
  | zero =>
    rw [List.length_eq_zero_iff.mp (Nat.le_zero.mp within)]
    cases limit <;> rfl
  | succ bound hypothesis =>
    cases word with
    | nil => cases limit <;> rfl
    | cons byte rest =>
      cases limit with
      | zero => cases Nat.le_zero.mp enough
      | succ limit =>
        have shorter :=
          length_drop_readWidth_lt maxWidth (List.cons_ne_nil byte rest)
        simp only [cutWithin]
        rw [hypothesis (by omega) limit (by omega)]

/-- A word is cut by cutting what is left behind its first chunk. -/
theorem cut_of_ne_nil
    (maxWidth : Nat)
    {word : Bytes}
    (nonempty : word ≠ []) :
    cut maxWidth word =
      word.take (readWidth word.length maxWidth) ::
        cut maxWidth (word.drop (readWidth word.length maxWidth)) := by
  have shorter := length_drop_readWidth_lt maxWidth nonempty
  cases word with
  | nil => exact absurd rfl nonempty
  | cons byte rest =>
    rw [← cutWithin_eq_cut (Nat.le_of_lt_succ shorter)]
    rfl

theorem nil_lt_cut
    (maxWidth : Nat)
    {word : Bytes}
    (nonempty : word ≠ []) :
    [] < cut maxWidth word := by
  rw [cut_of_ne_nil maxWidth nonempty]
  exact List.nil_lt_cons _ _

/-- A word that begins with the first chunk of its cut. -/
theorem of_cut_append
    {maxWidth : Nat}
    {chunk tail : Bytes}
    {path : List Bytes}
    (pieces : cut maxWidth (chunk ++ tail) = chunk :: path) :
    chunk.length = readWidth (chunk ++ tail).length maxWidth ∧
      cut maxWidth tail = path := by
  have nonempty : chunk ++ tail ≠ [] := by
    intro empty
    rw [empty, cut_nil] at pieces
    cases pieces
  have width_le := readWidth_le_remaining
    (List.length_pos_iff.mpr nonempty) maxWidth
  rw [cut_of_ne_nil maxWidth nonempty] at pieces
  obtain ⟨first, others⟩ := List.cons.inj pieces
  have width_eq : chunk.length = readWidth (chunk ++ tail).length maxWidth := by
    conv => lhs; rw [← first]
    rw [List.length_take]
    omega
  refine ⟨width_eq, ?_⟩
  rw [← others, ← width_eq, List.drop_left]

theorem flatten_append_flatten_of_cut
    {maxWidth : Nat}
    {word : Bytes}
    {path pieces : List Bytes}
    (whole : cut maxWidth word = path ++ pieces) :
    path.flatten ++ pieces.flatten = word := by
  rw [← List.flatten_append, ← whole, flatten_cut]

/-- What is left behind some chunks of a cut is cut as it was. -/
theorem cut_flatten_of_cut
    {maxWidth : Nat}
    {word : Bytes}
    {path pieces : List Bytes}
    (whole : cut maxWidth word = path ++ pieces) :
    cut maxWidth pieces.flatten = pieces := by
  have word_eq := flatten_append_flatten_of_cut whole
  induction path generalizing word with
  | nil => rwa [← word_eq] at whole
  | cons chunk path hypothesis =>
    rw [List.flatten_cons, List.append_assoc] at word_eq
    rw [← word_eq, List.cons_append] at whole
    exact hypothesis (of_cut_append whole).2 rfl

end Chunk
end WordSwitch
