import WordSwitch.File.Source
import WordSwitch.Gzip.Checksum
import WordSwitch.Gzip.Inflate

/-!
# Compressed files

A compressed file is a sequence of members.  Each has a header with optional
fields, deflated data, and the checksum and the size of what comes out.  What
came out before the data ends too early is delivered; damaged data takes with
it what came out in the step that meets the damage.
-/

namespace WordSwitch
namespace Gzip

/-- Split off the first `count` bytes, if there are as many. -/
def splitOff
    (count : Nat)
    (bytes : Bytes) :
    Except FileFailure (Bytes × Bytes) :=
  if bytes.length < count then .error .unexpectedEnd
  else .ok (bytes.take count, bytes.drop count)

/-- The number that bytes stand for, the lowest first. -/
def littleEndian : Bytes → Nat
  | [] => 0
  | byte :: rest => byte.toNat + 256 * littleEndian rest

/-- The longest text in a header. -/
def longestText : Nat := 65535

/-- Skip a text that a zero byte ends. -/
def skipText (bytes : Bytes) : Except FileFailure Bytes :=
  let text := bytes.takeWhile (· != 0)
  if longestText < text.length then .error .headerTooLong
  else match bytes.drop text.length with
    | [] => .error .unexpectedEnd
    | _ :: rest => .ok rest

/-- Skip a field that a flag announces. -/
def skipIf
    (isPresent : Bool)
    (skip : Bytes → Except FileFailure Bytes)
    (bytes : Bytes) :
    Except FileFailure Bytes :=
  if isPresent then skip bytes else .ok bytes

/-- Skip a field of announced length. -/
def skipExtra (bytes : Bytes) : Except FileFailure Bytes := do
  let (length, rest) ← splitOff 2 bytes
  let (_, rest) ← splitOff (littleEndian length) rest
  return rest

/-- Check the checksum of a header, given the bytes that start with it. -/
def skipHeaderChecksum (member bytes : Bytes) : Except FileFailure Bytes := do
  let header := member.take (member.length - bytes.length)
  let (recorded, rest) ← splitOff 2 bytes
  if littleEndian recorded = checksum header.toArray % 65536 then return rest
  else .error .checksumMismatch

/-- Skip a header. -/
def skipHeader (member : Bytes) : Except FileFailure Bytes := do
  let (fixed, bytes) ← splitOff 10 member
  match fixed with
  | 0x1f :: 0x8b :: 8 :: flags :: _ =>
    if flags &&& 0xe0 != 0 then .error .invalidHeader
    else
      let bytes ← skipIf (flags &&& 4 != 0) skipExtra bytes
      let bytes ← skipIf (flags &&& 8 != 0) skipText bytes
      let bytes ← skipIf (flags &&& 16 != 0) skipText bytes
      skipIf (flags &&& 2 != 0) (skipHeaderChecksum member) bytes
  | _ => .error .invalidHeader

/-- Recorded sizes are counted modulo this. -/
def sizeModulus : Nat := 0x100000000

/-- Check what follows the data of a member. -/
def checkTrailer
    (output : Array UInt8)
    (bytes : Bytes) :
    Except FileFailure Bytes := do
  let (trailer, rest) ← splitOff 8 bytes
  if littleEndian (trailer.take 4) = checksum output ∧
      littleEndian (trailer.drop 4) = output.size % sizeModulus then
    return rest
  else
    .error .checksumMismatch

/-- What is delivered of the data that has a fault. -/
def deliveredBefore (fault : Fault) (inflation : Inflation) : Bytes :=
  match fault with
  | .truncated => inflation.output.toList
  | .corrupt => inflation.output.toList.take inflation.safe

/-- Why a source fails when its data has a fault. -/
def failureOf : Fault → FileFailure
  | .truncated => .incompleteData
  | .corrupt => .corruptData

/-- What one member delivers, and what follows it unless it fails.  In front
of the member are `before` bytes. -/
def readMember
    (before : Nat)
    (member : Bytes) :
    Bytes × Except FileFailure Bytes :=
  match skipHeader member with
  | .error failure => ([], .error failure)
  | .ok bytes =>
    let taken := before + (member.length - bytes.length)
    match inflate (.ofBytes taken bytes) with
    | .error fault inflation =>
      (deliveredBefore fault inflation, .error (failureOf fault))
    | .ok () inflation =>
      (inflation.output.toList,
        checkTrailer inflation.output inflation.bits.rest)

/-- What at most `bound` members deliver. -/
def readMembers : (bound before : Nat) → Bytes → Source
  | 0, _, _ => ⟨[], none⟩
  | bound + 1, before, member =>
    match readMember before member with
    | (delivered, .error failure) => ⟨delivered, some failure⟩
    | (delivered, .ok []) => ⟨delivered, none⟩
    | (delivered, .ok rest) =>
      let following :=
        readMembers bound (before + (member.length - rest.length)) rest
      ⟨delivered ++ following.delivered, following.failure⟩

/-- What a compressed file delivers. -/
def source (bytes : Bytes) : Source :=
  readMembers (bytes.length + 1) 0 bytes

end Gzip
end WordSwitch
