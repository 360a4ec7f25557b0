import WordSwitch.Chunk.Case

/-!
# Widths of chunks

A chunk read at once has a width that is a power of two.  The read width is
the largest such width that the bytes left and the configured limit allow.
A word is cut greedily, one read width after the other.  When case is
ignored, the cut additionally stops in front of the first byte that cannot be
compared through the fold.
-/

namespace WordSwitch
namespace Chunk

/-- The widths that a single read of the generated code supports. -/
def readableWidths : List Nat :=
  [1, 2, 4, 8]

/-- The largest power of two that exceeds neither bound, and at least one. -/
def readWidth (remaining maxWidth : Nat) : Nat :=
  1 <<< (max (min remaining maxWidth) 1).log2

theorem readWidth_pos (remaining maxWidth : Nat) :
    0 < readWidth remaining maxWidth := by
  rw [readWidth, Nat.one_shiftLeft]
  exact Nat.two_pow_pos _

theorem readWidth_le
    (remaining maxWidth : Nat) :
    readWidth remaining maxWidth ≤ max (min remaining maxWidth) 1 := by
  rw [readWidth, Nat.one_shiftLeft]
  exact Nat.log2_self_le (by omega)

/-- A read stays within the bytes left. -/
theorem readWidth_le_remaining
    {remaining : Nat}
    (positive : 0 < remaining)
    (maxWidth : Nat) :
    readWidth remaining maxWidth ≤ remaining := by
  have bound := readWidth_le remaining maxWidth
  omega

/-- The width of some chunks if they have one in common. -/
def commonWidth? : List Bytes → Option Nat
  | [] => none
  | chunk :: others =>
    if others.all (·.length == chunk.length) then some chunk.length else none

theorem commonWidth?_eq_some
    {chunks : List Bytes}
    {width : Nat}
    (nonempty : chunks ≠ [])
    (oneWidth : ∀ chunk ∈ chunks, chunk.length = width) :
    commonWidth? chunks = some width := by
  cases chunks with
  | nil => exact absurd rfl nonempty
  | cons chunk others =>
    obtain ⟨rfl, alike⟩ := List.forall_mem_cons.mp oneWidth
    rw [commonWidth?, if_pos]
    exact List.all_eq_true.mpr fun other listed =>
      beq_iff_eq.mpr (alike other listed)

/-- How many bytes of `key` may be compared at once from its start. -/
def safeWidth
    (ignoreCase : Bool)
    (maxWidth : Nat)
    (key : Bytes) :
    Nat :=
  if ignoreCase then
    readWidth ((firstUnfoldable key).getD key.length) maxWidth
  else
    readWidth key.length maxWidth

/-- Cut a word of at most `bound` bytes into chunks of read width. -/
def cutWithin (maxWidth : Nat) : (bound : Nat) → Bytes → List Bytes
  | 0, _ => []
  | _ + 1, [] => []
  | bound + 1, byte :: rest =>
    let word := byte :: rest
    let width := readWidth word.length maxWidth
    word.take width :: cutWithin maxWidth bound (word.drop width)

/-- Cut a word into chunks, each as wide as the bytes left and the limit
allow. -/
def cut (maxWidth : Nat) (word : Bytes) : List Bytes :=
  cutWithin maxWidth word.length word

theorem flatten_cutWithin
    (maxWidth : Nat)
    {bound : Nat}
    {word : Bytes}
    (within : word.length ≤ bound) :
    (cutWithin maxWidth bound word).flatten = word := by
  induction bound generalizing word with
  | zero => simp_all [cutWithin]
  | succ bound hypothesis =>
    cases word with
    | nil => rfl
    | cons byte rest =>
      have positive := readWidth_pos (byte :: rest).length maxWidth
      simp only [cutWithin, List.flatten_cons]
      rw [hypothesis]
      · exact List.take_append_drop _ _
      · simp only [List.length_drop, List.length_cons] at within positive ⊢
        omega

/-- The chunks of a word make up the word. -/
@[simp] theorem flatten_cut (maxWidth : Nat) (word : Bytes) :
    (cut maxWidth word).flatten = word :=
  flatten_cutWithin maxWidth (Nat.le_refl _)

end Chunk
end WordSwitch
