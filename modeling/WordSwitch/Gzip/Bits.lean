import WordSwitch.Bytes

/-!
# Bits

Compressed data is read bit by bit, each byte from its lowest bit up.  A
reader either reads a value or stops at a fault; both leave behind what is
still to be read.
-/

namespace WordSwitch
namespace Gzip

/-- Why compressed data cannot be read on. -/
inductive Fault where
  /-- The data ends. -/
  | truncated
  /-- The data is not what a compressor writes. -/
  | corrupt
deriving DecidableEq, Repr

/-- What is left to read: the unread bits of a byte, and the bytes after
it. -/
structure Bits where
  /-- The unread bits of the byte, the next one lowest. -/
  current : Nat
  /-- How many bits of the byte are unread. -/
  available : Nat
  rest : Bytes
  /-- How many bytes of the file come before the rest. -/
  taken : Nat
deriving DecidableEq, Repr

/-- A reader of bits. -/
abbrev Reading := EStateM Fault Bits

namespace Bits

/-- The bits of some bytes, in front of which `taken` bytes were read. -/
def ofBytes (taken : Nat) (bytes : Bytes) : Bits := ⟨0, 0, bytes, taken⟩

/-- Pass over the unread bits of the byte that is partly read. -/
def align (bits : Bits) : Bits :=
  { bits with current := 0, available := 0 }

/-- Read one bit. -/
def next : Reading Nat := fun bits =>
  match bits.available, bits.rest with
  | available + 1, _ =>
    .ok (bits.current % 2)
      { bits with current := bits.current / 2, available := available }
  | 0, byte :: rest =>
    .ok (byte.toNat % 2) ⟨byte.toNat / 2, 7, rest, bits.taken + 1⟩
  | 0, [] => .error .truncated bits

/-- Read the byte after the one that is partly read. -/
def nextByte : Reading UInt8 := fun bits =>
  match bits.rest with
  | byte :: rest => .ok byte (ofBytes (bits.taken + 1) rest)
  | [] => .error .truncated bits

/-- Read a number of `count` bits, the lowest first. -/
def number : (count : Nat) → Reading Nat
  | 0 => return 0
  | count + 1 => do
    let low ← next
    let high ← number count
    return low + 2 * high

end Bits

end Gzip
end WordSwitch
