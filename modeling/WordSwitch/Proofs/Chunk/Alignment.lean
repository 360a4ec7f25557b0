import WordSwitch.Proofs.Chunk.Case
import WordSwitch.Proofs.Chunk.Cut

/-!
# Chunks that one switch tells apart

The chunks that leave a node are aligned if they are distinct and have one
width, and if the fold is sound for them wherever it is needed.  Then the
comparison that the node chooses accepts what is read for exactly one chunk:
the form in which words are inserted.
-/

namespace WordSwitch
namespace Chunk

/-- The form of some bytes that the chunks of a trie are compared with. -/
def compared (ignoreCase : Bool) (bytes : Bytes) : Bytes :=
  if ignoreCase then Bytes.lower bytes else bytes

@[simp] theorem length_compared (ignoreCase : Bool) (bytes : Bytes) :
    (compared ignoreCase bytes).length = bytes.length := by
  unfold compared
  split
  · exact Bytes.length_lower bytes
  · rfl

@[simp] theorem compared_eq_nil_iff {ignoreCase : Bool} {bytes : Bytes} :
    compared ignoreCase bytes = [] ↔ bytes = [] := by
  rw [← List.length_eq_zero_iff, length_compared, List.length_eq_zero_iff]

theorem compared_append (ignoreCase : Bool) (bytes others : Bytes) :
    compared ignoreCase (bytes ++ others) =
      compared ignoreCase bytes ++ compared ignoreCase others := by
  unfold compared
  split
  · exact List.map_append
  · rfl

theorem noUpper_compared (bytes : Bytes) :
    Bytes.NoUpper (compared true bytes) :=
  Bytes.noUpper_lower bytes

/-- Chunks that may leave one node.  When case is ignored they hold no
uppercase letter, and those wider than one byte consist of letters. -/
structure Aligned
    (ignoreCase : Bool)
    (limit : Nat)
    (chunks : List Bytes) :
    Prop where
  distinct : chunks.Nodup
  oneWidth : ∃ width, ReadableWithin limit width ∧
    ∀ chunk ∈ chunks, chunk.length = width
  noUpper : ignoreCase = true → ∀ chunk ∈ chunks, Bytes.NoUpper chunk
  foldable : ignoreCase = true →
    ∀ chunk ∈ chunks, 1 < chunk.length → allFoldable chunk = true

/-! ## Comparing -/

theorem acceptsByte_exact_iff {read key : UInt8} :
    Comparison.exact.acceptsByte read key = true ↔ read = key := by
  rw [Comparison.acceptsByte, beq_iff_eq]

theorem acceptsByte_folded_iff
    {read key : UInt8}
    (letter : isFoldable key = true)
    (notUpper : Byte.isUpper key = false) :
    Comparison.folded.acceptsByte read key = true ↔
      Byte.lower read = key := by
  rw [Comparison.acceptsByte, beq_iff_eq]
  exact Byte.fold_eq_iff letter notUpper

theorem acceptsByte_spelledOut_iff_lower_eq {read key : UInt8} :
    Comparison.spelledOut.acceptsByte read key = true ↔
      Byte.lower read = Byte.lower key := by
  rw [Comparison.acceptsByte, Bool.or_eq_true, Bool.and_eq_true, beq_iff_eq,
    beq_iff_eq]
  cases letter : Byte.isLetter key with
  | true =>
    refine ⟨?_, fun equal => Or.inr ⟨rfl, equal⟩⟩
    rintro (rfl | ⟨_, equal⟩)
    · rfl
    · exact equal
  | false => simp [Byte.lower_eq_lower_iff_of_not_letter letter]

theorem acceptsByte_spelledOut_iff
    {read key : UInt8}
    (notUpper : Byte.isUpper key = false) :
    Comparison.spelledOut.acceptsByte read key = true ↔
      Byte.lower read = key := by
  rw [acceptsByte_spelledOut_iff_lower_eq, Byte.lower_of_not_upper notUpper]

theorem accepts_exact_iff {read key : Bytes} :
    Comparison.exact.accepts read key = true ↔ read = key := by
  have bytewise : ∀ byte ∈ key, ∀ first,
      Comparison.exact.acceptsByte first byte = true ↔ id first = byte :=
    fun byte _ first => acceptsByte_exact_iff
  refine (Comparison.accepts_iff_of_bytes bytewise).trans ?_
  rw [List.map_id]

/-- The comparison of a node with aligned chunks accepts what is read for the
chunk that is its form, and for no other. -/
theorem Aligned.accepts_iff
    {ignoreCase : Bool}
    {limit : Nat}
    {chunks : List Bytes}
    (aligned : Aligned ignoreCase limit chunks)
    {chunk : Bytes}
    (listed : chunk ∈ chunks)
    {read : Bytes} :
    (Comparison.ofKeys ignoreCase chunks).accepts read chunk = true ↔
      compared ignoreCase read = chunk := by
  cases ignoreCase with
  | false => exact accepts_exact_iff
  | true =>
    have notUpper := aligned.noUpper rfl chunk listed
    unfold Comparison.ofKeys
    rw [if_neg (by decide)]
    split
    · next foldable =>
      have letters := List.all_eq_true.mp
        (List.all_eq_true.mp foldable chunk listed)
      exact Comparison.accepts_iff_of_bytes fun byte member read =>
        acceptsByte_folded_iff (letters byte member) (notUpper byte member)
    · exact Comparison.accepts_iff_of_bytes fun byte member read =>
        acceptsByte_spelledOut_iff (notUpper byte member)

/-- A node that spells out both cases reads one byte at a time. -/
theorem Aligned.length_eq_one_of_spelledOut
    {ignoreCase : Bool}
    {limit : Nat}
    {chunks : List Bytes}
    (aligned : Aligned ignoreCase limit chunks)
    (spelled : Comparison.ofKeys ignoreCase chunks = .spelledOut)
    {chunk : Bytes}
    (listed : chunk ∈ chunks) :
    chunk.length = 1 := by
  unfold Comparison.ofKeys at spelled
  cases ignoreCase with
  | false => simp at spelled
  | true =>
    rw [if_neg (by decide)] at spelled
    split at spelled
    · cases spelled
    · next unfoldable =>
      obtain ⟨width, readable, width_eq⟩ := aligned.oneWidth
      obtain ⟨other, otherListed, notAll⟩ :=
        List.all_eq_false.mp (Bool.not_eq_true _ ▸ unfoldable)
      have narrow : ¬1 < other.length := fun wide =>
        notAll (aligned.foldable rfl other otherListed wide)
      have positive := readable.pos
      rw [width_eq other otherListed] at narrow
      rw [width_eq chunk listed]
      omega

/-! ## Safe widths -/

theorem readableWithin_safeWidth
    {maxWidth : Nat}
    (positive : 0 < maxWidth)
    (ignoreCase : Bool)
    (key : Bytes) :
    ReadableWithin maxWidth (safeWidth ignoreCase maxWidth key) := by
  unfold safeWidth
  split <;> exact readableWithin_readWidth positive _

theorem firstUnfoldable_getD_le (key : Bytes) :
    (firstUnfoldable key).getD key.length ≤ key.length := by
  unfold firstUnfoldable
  cases first : key.findIdx? (! isFoldable ·) with
  | none => exact Nat.le_refl _
  | some index =>
    obtain ⟨within, _⟩ := List.findIdx?_eq_some_iff_getElem.mp first
    exact Nat.le_of_lt within

theorem safeWidth_le_length
    {key : Bytes}
    (nonempty : key ≠ [])
    (ignoreCase : Bool)
    (maxWidth : Nat) :
    safeWidth ignoreCase maxWidth key ≤ key.length := by
  have positive := List.length_pos_iff.mpr nonempty
  have first := firstUnfoldable_getD_le key
  unfold safeWidth
  split
  · have bound := readWidth_le ((firstUnfoldable key).getD key.length) maxWidth
    omega
  · exact readWidth_le_remaining positive maxWidth

/-- What stands before the first byte that cannot be folded can be folded. -/
theorem allFoldable_take
    {key : Bytes}
    {width : Nat}
    (within : width ≤ (firstUnfoldable key).getD key.length) :
    allFoldable (key.take width) = true := by
  refine List.all_eq_true.mpr ?_
  intro byte member
  unfold firstUnfoldable at within
  cases first : key.findIdx? (! isFoldable ·) with
  | none =>
    have holds := List.findIdx?_eq_none_iff.mp first byte
      (List.mem_of_mem_take member)
    simpa using holds
  | some index =>
    rw [first, Option.getD_some] at within
    obtain ⟨_, _, before⟩ := List.findIdx?_eq_some_iff_getElem.mp first
    obtain ⟨position, bound, rfl⟩ := List.mem_iff_getElem.mp member
    rw [List.length_take] at bound
    rw [List.getElem_take]
    simpa using before position (by omega)

/-- A chunk that is cut at a safe width and is wider than one byte can be
folded. -/
theorem allFoldable_take_of_le_safeWidth
    {key : Bytes}
    {maxWidth width : Nat}
    (wide : 1 < width)
    (safe : width ≤ safeWidth true maxWidth key) :
    allFoldable (key.take width) = true := by
  have bound := readWidth_le ((firstUnfoldable key).getD key.length) maxWidth
  rw [safeWidth, if_pos rfl] at safe
  exact allFoldable_take (by omega)

theorem firstUnfoldable_getD_of_allFoldable
    {key : Bytes}
    (foldable : allFoldable key = true) :
    (firstUnfoldable key).getD key.length = key.length := by
  have none_found : key.findIdx? (! isFoldable ·) = none := by
    rw [List.findIdx?_eq_none_iff]
    intro byte member
    rw [List.all_eq_true.mp foldable byte member, Bool.not_true]
  rw [firstUnfoldable, none_found, Option.getD_none]

/-- What is cut at a safe width is safe to compare as a whole. -/
theorem safeWidth_take
    {ignoreCase : Bool}
    {maxWidth width : Nat}
    {key : Bytes}
    (readable : ReadableWithin maxWidth width)
    (within : width ≤ key.length)
    (safe : width ≤ safeWidth ignoreCase maxWidth key) :
    safeWidth ignoreCase maxWidth (key.take width) = width := by
  have length_eq : (key.take width).length = width := by
    rw [List.length_take, Nat.min_eq_left within]
  cases ignoreCase with
  | false =>
    rw [safeWidth, if_neg Bool.false_ne_true, length_eq,
      readWidth_of_readable readable]
  | true =>
    rw [safeWidth, if_pos rfl] at safe ⊢
    by_cases wide : 1 < width
    · have bound :=
        readWidth_le ((firstUnfoldable key).getD key.length) maxWidth
      have foldable : allFoldable (key.take width) = true :=
        allFoldable_take (by omega)
      rw [firstUnfoldable_getD_of_allFoldable foldable, length_eq,
        readWidth_of_readable readable]
    · -- A single byte is read alone, whether or not it can be folded.
      have first := firstUnfoldable_getD_le (key.take width)
      have bound := readWidth_le
        ((firstUnfoldable (key.take width)).getD (key.take width).length)
        maxWidth
      have positive := readWidth_pos
        ((firstUnfoldable (key.take width)).getD (key.take width).length)
        maxWidth
      have width_pos := readable.pos
      omega

end Chunk
end WordSwitch
