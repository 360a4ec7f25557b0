import WordSwitch.Chunk.Case

/-!
# How a node compares chunks

A node compares the chunk it reads with the chunks on its edges in one of
three ways.  The choice depends on the edges alone: the fold is used if it is
sound for all of them, and otherwise both cases of every letter are spelled
out.
-/

namespace WordSwitch
namespace Chunk

/-- How a chunk that is read is compared with the chunk on an edge. -/
inductive Comparison where
  /-- Byte for byte. -/
  | exact
  /-- With the case bit set on both sides. -/
  | folded
  /-- Against each choice of case for the letters of the edge. -/
  | spelledOut
deriving DecidableEq, Repr

namespace Comparison

/-- The comparison that a node with the given edge chunks uses. -/
def ofKeys (ignoreCase : Bool) (keys : List Bytes) : Comparison :=
  if !ignoreCase then exact
  else if keys.all allFoldable then folded
  else spelledOut

/-- Compare a byte that was read with a byte on an edge. -/
def acceptsByte : Comparison → (read key : UInt8) → Bool
  | exact, read, key => read == key
  | folded, read, key => (read ||| caseBit) == (key ||| caseBit)
  | spelledOut, read, key =>
    read == key || (Byte.isLetter key && Byte.lower read == Byte.lower key)

/-- Compare a chunk that was read with an edge chunk of the same width. -/
def accepts (comparison : Comparison) : (read key : Bytes) → Bool
  | [], [] => true
  | read :: reads, key :: keys =>
    comparison.acceptsByte read key && accepts comparison reads keys
  | _, _ => false

end Comparison

end Chunk
end WordSwitch
