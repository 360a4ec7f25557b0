import WordSwitch.Chunk.Comparison

/-!
# The two cases of letters

Bytes that are not uppercase are their own lowercase form, so they are what
the lowercase form of an input is compared with.  On the letters among them the
fold agrees with that comparison, and so does spelling out both cases on all of
them.  A search through all bytes for those that the fold confuses with no other
finds the letters.
-/

namespace WordSwitch

namespace Byte

/-- A statement about one byte holds if it holds of the 256 codes. -/
theorem forall_of_codes
    {property : UInt8 → Prop}
    (codes : ∀ code : Fin 256, property ⟨⟨code⟩⟩)
    (byte : UInt8) :
    property byte :=
  codes byte.toFin

theorem lower_of_not_upper
    {byte : UInt8}
    (notUpper : isUpper byte = false) :
    lower byte = byte := by
  simp [lower, notUpper]

theorem isUpper_lower : ∀ byte : UInt8, isUpper (lower byte) = false :=
  forall_of_codes (by decide +kernel)

/-- A byte whose lowercase form is no letter is its own lowercase form. -/
theorem eq_of_lower_eq
    {read key : UInt8}
    (notLetter : isLetter key = false)
    (equal : lower read = key) :
    read = key := by
  have kept : ∀ byte : UInt8, isLetter (lower byte) = false →
      byte = lower byte :=
    forall_of_codes (by decide +kernel)
  rw [← equal]
  exact kept read (equal.symm ▸ notLetter)

/-- A byte that is no letter agrees with itself alone. -/
theorem lower_eq_lower_iff_of_not_letter
    {read key : UInt8}
    (notLetter : isLetter key = false) :
    lower read = lower key ↔ read = key := by
  have key_lower : lower key = key := by
    refine lower_of_not_upper ?_
    rw [isLetter, Bool.or_eq_false_iff] at notLetter
    exact notLetter.1
  rw [key_lower]
  refine ⟨eq_of_lower_eq notLetter, ?_⟩
  rintro rfl
  exact key_lower

/-- The fold keeps a lowercase letter. -/
theorem fold_of_letter
    {byte : UInt8}
    (letter : isLetter byte = true)
    (notUpper : isUpper byte = false) :
    byte ||| Chunk.caseBit = byte := by
  have kept : ∀ other : UInt8, isLetter other = true →
      isUpper other = false → other ||| Chunk.caseBit = other :=
    forall_of_codes (by decide +kernel)
  exact kept byte letter notUpper

theorem fold_of_letter_lower : ∀ byte : UInt8,
    isLetter (lower byte) = true → byte ||| Chunk.caseBit = lower byte :=
  forall_of_codes (by decide +kernel)

theorem lower_of_letter_fold : ∀ byte : UInt8,
    isLetter (byte ||| Chunk.caseBit) = true →
      lower byte = byte ||| Chunk.caseBit :=
  forall_of_codes (by decide +kernel)

/-- The fold takes a byte to a lowercase letter exactly if that letter is its
lowercase form. -/
theorem fold_eq_iff
    {read key : UInt8}
    (letter : isLetter key = true)
    (notUpper : isUpper key = false) :
    read ||| Chunk.caseBit = key ||| Chunk.caseBit ↔ lower read = key := by
  rw [fold_of_letter letter notUpper]
  constructor
  · intro folded
    rw [lower_of_letter_fold read (folded.symm ▸ letter), folded]
  · intro lowered
    rw [fold_of_letter_lower read (lowered.symm ▸ letter), lowered]

end Byte

namespace Chunk

/-! ## The bytes that the fold tells apart -/

/-- Whether the fold sends a byte to its own lowercase form and no byte with
another lowercase form to that one. -/
def isToldApart (byte : UInt8) : Bool :=
  (byte ||| caseBit) == Byte.lower byte &&
    (List.finRange 256).all fun code =>
      let other := UInt8.ofFin code
      !(other != byte && (other ||| caseBit) == Byte.lower byte &&
        Byte.lower other != Byte.lower byte)

/-- For all bytes in their order, whether the fold tells them apart. -/
def toldApartTable : List Bool :=
  (List.finRange 256).map fun code => isToldApart (UInt8.ofFin code)

/-- The fold confuses a letter with no other byte, and any other byte that it
keeps with the one that differs in the case bit. -/
theorem isToldApart_eq_isFoldable (byte : UInt8) :
    isToldApart byte = isFoldable byte := by
  unfold isToldApart isFoldable
  cases letter : Byte.isLetter byte with
  | true =>
    have lowered : ∀ other : UInt8, Byte.isLetter other = true →
        Byte.isLetter (Byte.lower other) = true :=
      Byte.forall_of_codes (by decide +kernel)
    have lowerLetter := lowered byte letter
    rw [Byte.fold_of_letter_lower byte lowerLetter, beq_self_eq_true,
      Bool.true_and, List.all_eq_true]
    intro code _
    by_cases same : UInt8.ofFin code ||| caseBit = Byte.lower byte
    · have lower_eq := Byte.lower_of_letter_fold _ (same ▸ lowerLetter)
      simp [lower_eq, same]
    · simp [same]
  | false =>
    have confused : ∀ other : UInt8, Byte.isLetter other = false →
        other ||| caseBit = Byte.lower other →
          other ^^^ caseBit ≠ other ∧
            (other ^^^ caseBit) ||| caseBit = Byte.lower other ∧
            Byte.lower (other ^^^ caseBit) ≠ Byte.lower other :=
      Byte.forall_of_codes (by decide +kernel)
    by_cases kept : byte ||| caseBit = Byte.lower byte
    · obtain ⟨other, folded, apart⟩ := confused byte letter kept
      rw [Bool.and_eq_false_iff]
      refine .inr (List.all_eq_false.mpr
        ⟨(byte ^^^ caseBit).toFin, List.mem_finRange _, ?_⟩)
      simp [other, folded, apart]
    · simp [kept]

/-- The table says of every byte whether it can be folded. -/
theorem getElem?_toldApartTable (byte : UInt8) :
    toldApartTable[byte.toNat]? = some (isFoldable byte) := by
  have inside : byte.toNat < (List.finRange 256).length := by
    simpa using byte.toNat_lt
  rw [toldApartTable, List.getElem?_map, List.getElem?_eq_getElem inside,
    List.getElem_finRange, Option.map_some, ← isToldApart_eq_isFoldable]
  rfl

end Chunk

namespace Bytes

/-- No byte is an uppercase letter. -/
def NoUpper (bytes : Bytes) : Prop :=
  ∀ byte ∈ bytes, Byte.isUpper byte = false

theorem noUpper_lower (bytes : Bytes) : NoUpper (lower bytes) := by
  intro byte member
  obtain ⟨original, _, rfl⟩ := List.mem_map.mp member
  exact Byte.isUpper_lower original

@[simp] theorem length_lower (bytes : Bytes) :
    (lower bytes).length = bytes.length :=
  List.length_map _

end Bytes

namespace Chunk
namespace Comparison

theorem accepts_iff_of_bytes
    {comparison : Comparison}
    {form : UInt8 → UInt8}
    {key : Bytes}
    (bytewise : ∀ byte ∈ key, ∀ read,
      comparison.acceptsByte read byte = true ↔ form read = byte)
    {read : Bytes} :
    comparison.accepts read key = true ↔ read.map form = key := by
  induction read generalizing key with
  | nil => cases key <;> simp [accepts]
  | cons first later hypothesis =>
    cases key with
    | nil => simp [accepts]
    | cons byte rest =>
      have inRest := fun other member =>
        bytewise other (List.mem_cons_of_mem byte member)
      rw [accepts, Bool.and_eq_true, List.map_cons, List.cons.injEq,
        bytewise byte List.mem_cons_self first, hypothesis inRest]

end Comparison
end Chunk

end WordSwitch
