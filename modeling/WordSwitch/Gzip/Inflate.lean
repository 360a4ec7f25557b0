import WordSwitch.Gzip.Huffman

/-!
# Inflating

Deflated data is a sequence of blocks, each stored, or compressed with fixed
or with transmitted codes.  A compressed block is a sequence of literal bytes
and of copies from the bytes before.

Inflating goes on in steps.  A step ends when the input at hand is used up, or
when the window is full and another byte is to come out.  What comes out in a
step is safe from faults once the step has ended.
-/

namespace WordSwitch
namespace Gzip

/-- How many bytes of a file are at hand at a time. -/
def pieceSize : Nat := 32768

/-- How many bytes the window holds. -/
def windowSize : Nat := 32768

/-- How many bytes a step hands out at least if input is left. -/
def leastStep : Nat := 8192

/-- Data being inflated. -/
structure Inflation where
  /-- What came out. -/
  output : Array UInt8
  /-- What is left to read. -/
  bits : Bits
  /-- How many bytes came out in the steps that have ended. -/
  safe : Nat

/-- A part of inflating.  A fault leaves behind what was inflated before. -/
abbrev Inflating := EStateM Fault Inflation

namespace Inflation

/-- Inflation about to start. -/
def ofBits (bits : Bits) : Inflation := ⟨#[], bits, 0⟩

/-- End a step. -/
def endStep (inflation : Inflation) : Inflation :=
  { inflation with safe := inflation.output.size }

/-- The piece of the file that the last byte taken belongs to. -/
def pieceOf (bits : Bits) : Nat := (bits.taken - 1) / pieceSize

/-- Go on with other bits, in a new step if another piece was taken up. -/
def continueWith (inflation : Inflation) (bits : Bits) : Inflation :=
  if pieceOf bits = pieceOf inflation.bits then
    { inflation with bits := bits }
  else
    { inflation.endStep with bits := bits }

/-- Whether the window is full. -/
def isWindowFull (inflation : Inflation) : Bool :=
  inflation.output.size % windowSize == 0

/-- Whether the input at hand is used up. -/
def isPieceUsedUp (inflation : Inflation) : Bool :=
  inflation.bits.taken % pieceSize == 0 || inflation.bits.rest.isEmpty

/-- Make sure that the window has room for a byte, which ends the step if
enough was inflated in it or no input is at hand. -/
def makeRoom (inflation : Inflation) : Inflation :=
  if inflation.isWindowFull &&
      (leastStep ≤ inflation.output.size - inflation.safe ||
        inflation.isPieceUsedUp) then
    inflation.endStep
  else
    inflation

/-- Append a byte to a window with room for it. -/
def append (inflation : Inflation) (byte : UInt8) : Inflation :=
  { inflation with output := inflation.output.push byte }

/-- Make room for a byte and append it. -/
def push (inflation : Inflation) (byte : UInt8) : Inflation :=
  inflation.makeRoom.append byte

/-- Append copies of the byte `distance` places back.  Places before the
start of the output hold zero. -/
def copy (distance : Nat) : (length : Nat) → Inflation → Inflation
  | 0, inflation => inflation
  | length + 1, inflation =>
    let size := inflation.output.size
    let byte := if distance ≤ size then
      inflation.output.getD (size - distance) 0 else 0
    copy distance length (inflation.push byte)

/-- Read something. -/
def read {α : Type} (reader : Reading α) : Inflating α := fun inflation =>
  match reader inflation.bits with
  | .ok value bits => .ok value (inflation.continueWith bits)
  | .error fault bits => .error fault (inflation.continueWith bits)

end Inflation

open Inflation (read)

/-- The least length and the number of extra bits for each length symbol,
counted from 257. -/
def lengthCodes : List (Nat × Nat) :=
  [(3, 0), (4, 0), (5, 0), (6, 0), (7, 0), (8, 0), (9, 0), (10, 0), (11, 1),
    (13, 1), (15, 1), (17, 1), (19, 2), (23, 2), (27, 2), (31, 2), (35, 3),
    (43, 3), (51, 3), (59, 3), (67, 4), (83, 4), (99, 4), (115, 4), (131, 5),
    (163, 5), (195, 5), (227, 5), (258, 0)]

/-- The least distance and the number of extra bits for each distance
symbol. -/
def distanceCodes : List (Nat × Nat) :=
  [(1, 0), (2, 0), (3, 0), (4, 0), (5, 1), (7, 1), (9, 2), (13, 2), (17, 3),
    (25, 3), (33, 4), (49, 4), (65, 5), (97, 5), (129, 6), (193, 6), (257, 7),
    (385, 7), (513, 8), (769, 8), (1025, 9), (1537, 9), (2049, 10),
    (3073, 10), (4097, 11), (6145, 11), (8193, 12), (12289, 12), (16385, 13),
    (24577, 13)]

/-- Read the number that a symbol and its extra bits stand for. -/
def readExtra (codes : List (Nat × Nat)) (symbol : Nat) : Reading Nat :=
  match codes[symbol]? with
  | none => throw .corrupt
  | some (least, extra) => return least + (← Bits.number extra)

/-- The codes of a compressed block: for literal bytes, lengths and the end,
and for distances. -/
structure BlockCodes where
  literals : Huffman
  distances : Huffman

/-- Inflate a compressed block of at most `bound` symbols. -/
def inflateSymbols (codes : BlockCodes) : (bound : Nat) → Inflating Unit
  | 0 => throw .corrupt
  | bound + 1 => do
    let symbol ← read codes.literals.decode
    if symbol < 256 then
      modify (·.push (UInt8.ofNat symbol))
      inflateSymbols codes bound
    else if symbol = 256 then
      return
    else
      let length ← read (readExtra lengthCodes (symbol - 257))
      let distanceSymbol ← read codes.distances.decode
      let distance ← read (readExtra distanceCodes distanceSymbol)
      modify (·.copy distance length)
      inflateSymbols codes bound

/-- The codes of a block that transmits none. -/
def fixedCodes : BlockCodes where
  literals := .ofLengths (List.replicate 144 8 ++ List.replicate 112 9 ++
    List.replicate 24 7 ++ List.replicate 8 8)
  distances := .ofLengths (List.replicate 32 5)

/-- The order in which the lengths of the code for lengths are
transmitted. -/
def transmissionOrder : List Nat :=
  [16, 17, 18, 0, 8, 7, 9, 6, 10, 5, 11, 4, 12, 3, 13, 2, 14, 1, 15]

/-- Read `count` numbers of three bits. -/
def readTriples : (count : Nat) → Reading (List Nat)
  | 0 => return []
  | count + 1 => do
    let first ← Bits.number 3
    let others ← readTriples count
    return first :: others

/-- The lengths in the order of their symbols. -/
def inSymbolOrder (transmitted : List Nat) : List Nat :=
  let pairs := transmissionOrder.zip transmitted
  (List.range 19).map fun symbol => (pairs.lookup symbol).getD 0

/-- Read how often a length is repeated, and which, for a symbol above
fifteen: the previous length or zero. -/
def readRepetition
    (symbol : Nat)
    (previous : Option Nat) :
    Reading (Nat × Nat) :=
  match symbol, previous with
  | 16, some length => return (3 + (← Bits.number 2), length)
  | 16, none => throw .corrupt
  | 17, _ => return (3 + (← Bits.number 3), 0)
  | _, _ => return (11 + (← Bits.number 7), 0)

/-- Read code lengths, latest first, until there are `total`. -/
def readLengths
    (code : Huffman)
    (total : Nat) :
    (bound : Nat) → (reversed : List Nat) → Reading (List Nat)
  | 0, _ => throw .corrupt
  | bound + 1, reversed =>
    if reversed.length = total then return reversed.reverse
    else if total < reversed.length then throw .corrupt
    else do
      let symbol ← code.decode
      if symbol < 16 then
        readLengths code total bound (symbol :: reversed)
      else
        let (count, length) ← readRepetition symbol reversed.head?
        readLengths code total bound
          (List.replicate count length ++ reversed)

/-- Refuse data that does not pass a test. -/
def refuseUnless (isValid : Bool) : Reading Unit :=
  if isValid then return else throw .corrupt

/-- The largest number of lengths transmitted for literals, lengths and the
end. -/
def mostLiterals : Nat := 286

/-- The largest number of lengths transmitted for distances. -/
def mostDistances : Nat := 30

/-- Read the codes that a block transmits.  The code for lengths has to be
complete; the other two may be trivial. -/
def readCodes : Reading BlockCodes := do
  let literals := 257 + (← Bits.number 5)
  let distances := 1 + (← Bits.number 5)
  let transmitted := 4 + (← Bits.number 4)
  refuseUnless (literals ≤ mostLiterals && distances ≤ mostDistances)
  let code := Huffman.ofLengths (inSymbolOrder (← readTriples transmitted))
  refuseUnless code.isComplete
  let total := literals + distances
  let lengths ← readLengths code total (total + 1) []
  let codes : BlockCodes :=
    ⟨.ofLengths (lengths.take literals), .ofLengths (lengths.drop literals)⟩
  refuseUnless (codes.literals.isComplete || codes.literals.isTrivial)
  refuseUnless (codes.distances.isComplete || codes.distances.isTrivial)
  return codes

/-- Inflate `length` bytes that are stored as they are. -/
def inflateStored : (length : Nat) → Inflating Unit
  | 0 => return
  | length + 1 => do
    modify Inflation.makeRoom
    let byte ← read Bits.nextByte
    modify (·.append byte)
    inflateStored length

/-- Inflate a stored block, which starts at the next byte with its length and
the complement of that. -/
def inflateStoredBlock : Inflating Unit := do
  read (modify Bits.align)
  let length ← read (Bits.number 16)
  let complement ← read (Bits.number 16)
  if length + complement = 65535 then inflateStored length
  else throw .corrupt

/-- A bound on the symbols in a block: each takes at least one bit. -/
def Inflation.symbolBound (inflation : Inflation) : Nat :=
  8 * inflation.bits.rest.length + 9

/-- Inflate a block after the bit that says whether it is the last. -/
def inflateBlock : Inflating Unit := do
  match ← read (Bits.number 2) with
  | 0 => inflateStoredBlock
  | 1 => inflateSymbols fixedCodes (← get).symbolBound
  | 2 =>
    let codes ← read readCodes
    inflateSymbols codes (← get).symbolBound
  | _ => throw .corrupt

/-- Inflate at most `bound` blocks, up to the last. -/
def inflateBlocks : (bound : Nat) → Inflating Unit
  | 0 => throw .corrupt
  | bound + 1 => do
    let isLast ← read Bits.next
    inflateBlock
    if isLast = 1 then return
    else inflateBlocks bound

/-- Inflate the data that some bits start with. -/
def inflate (bits : Bits) : EStateM.Result Fault Inflation Unit :=
  inflateBlocks (8 * bits.rest.length + 1) (.ofBits bits)

end Gzip
end WordSwitch
