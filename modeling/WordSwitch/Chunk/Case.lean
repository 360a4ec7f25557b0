import WordSwitch.Bytes

/-!
# Comparing chunks without regard to case

The two cases of an ASCII letter differ in one bit.  Setting that bit folds
them together, but it also folds other bytes together: a carriage return
lands on a hyphen.  The fold is a sound comparison for letters alone, so a
chunk may be compared through it exactly when it consists of letters.
-/

namespace WordSwitch
namespace Chunk

/-- The bit in which the two cases of an ASCII letter differ. -/
def caseBit : UInt8 := 0x20

/-- Set the case bit of every byte. -/
def fold (chunk : Bytes) : Bytes :=
  chunk.map (· ||| caseBit)

/-- Bytes that the fold sends to their own lowercase form and to no form of
another byte: the ASCII letters. -/
def isFoldable (byte : UInt8) : Bool :=
  Byte.isLetter byte

/-- A chunk may be compared through the fold if every byte may. -/
def allFoldable (chunk : Bytes) : Bool :=
  chunk.all isFoldable

/-- The offset of the first byte that the fold does not compare soundly. -/
def firstUnfoldable (chunk : Bytes) : Option Nat :=
  chunk.findIdx? (! isFoldable ·)

/-- The case bit repeated in each of the lowest `width` bytes. -/
def foldMask : (width : Nat) → Nat
  | 0 => 0
  | width + 1 => foldMask width + caseBit.toNat <<< (8 * width)

/-- Every way to choose the case of the letters, in ascending byte order. -/
def caseVariants : Bytes → List Bytes
  | [] => [[]]
  | byte :: rest =>
    let tails := caseVariants rest
    if Byte.isLetter byte then
      tails.map (Byte.upper byte :: ·) ++ tails.map (Byte.lower byte :: ·)
    else
      tails.map (byte :: ·)

end Chunk
end WordSwitch
