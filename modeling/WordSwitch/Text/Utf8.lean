import WordSwitch.Bytes

/-!
# Reading bytes as UTF-8

Bytes that are not well-formed UTF-8 are still shown: each maximal part that
begins a character but does not complete it becomes one replacement
character, and so does each byte that can begin none.
-/

namespace WordSwitch
namespace Text

/-- What a byte that starts a character of several bytes promises: the
allowed range of the second byte, and how many bytes follow the first. -/
structure Lead where
  low : UInt8
  high : UInt8
  following : Nat
  bits : Nat

/-- The first byte of a character of two, three or four bytes.  The range of
the second byte excludes long forms, surrogates and codes past U+10FFFF. -/
def lead? (byte : UInt8) : Option Lead :=
  if byte < 0xc2 then none
  else if byte < 0xe0 then some ⟨0x80, 0xbf, 1, byte.toNat - 0xc0⟩
  else if byte == 0xe0 then some ⟨0xa0, 0xbf, 2, 0⟩
  else if byte == 0xed then some ⟨0x80, 0x9f, 2, 13⟩
  else if byte < 0xf0 then some ⟨0x80, 0xbf, 2, byte.toNat - 0xe0⟩
  else if byte == 0xf0 then some ⟨0x90, 0xbf, 3, 0⟩
  else if byte == 0xf4 then some ⟨0x80, 0x8f, 3, 4⟩
  else if byte < 0xf4 then some ⟨0x80, 0xbf, 3, byte.toNat - 0xf0⟩
  else none

/-- The decoder's memory between two bytes: either at the start of a
character, or inside one, with the range of the next byte, the number of
bytes after that, and the bits read so far. -/
inductive DecoderState where
  | start
  | inside (low high : UInt8) (after bits : Nat)

/-- The character that replaces what cannot be read. -/
def replacement : Char := Char.ofNat 0xfffd

/-- Read a byte at the start of a character, in front of characters already
read (latest first). -/
def startCharacter
    (read : List Char)
    (byte : UInt8) :
    List Char × DecoderState :=
  if byte < 0x80 then (Char.ofNat byte.toNat :: read, .start)
  else match lead? byte with
    | none => (replacement :: read, .start)
    | some lead =>
      (read, .inside lead.low lead.high (lead.following - 1) lead.bits)

/-- Read one byte. -/
def decodeByte :
    List Char × DecoderState → UInt8 → List Char × DecoderState
  | (read, .start), byte => startCharacter read byte
  | (read, .inside low high after bits), byte =>
    if low ≤ byte && byte ≤ high then
      let bits := bits * 64 + (byte.toNat - 0x80)
      match after with
      | 0 => (Char.ofNat bits :: read, .start)
      | after + 1 => (read, .inside 0x80 0xbf after bits)
    else
      startCharacter (replacement :: read) byte

/-- What remains of a character that the end of the bytes cuts off. -/
def finishDecoding : List Char × DecoderState → List Char
  | (read, .start) => read.reverse
  | (read, .inside ..) => (replacement :: read).reverse

/-- Read bytes as UTF-8, replacing what is not well formed. -/
def decode (bytes : Bytes) : String :=
  String.ofList (finishDecoding (bytes.foldl decodeByte ([], .start)))

end Text
end WordSwitch
