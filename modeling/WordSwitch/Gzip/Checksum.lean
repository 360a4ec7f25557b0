import WordSwitch.Bytes

/-!
# Checksums

The cyclic redundancy check of 32 bits that guards compressed data.
-/

namespace WordSwitch
namespace Gzip

/-- Divide by the generator polynomial, one bit at a time. -/
def divideBits : (count : Nat) → UInt32 → UInt32
  | 0, remainder => remainder
  | count + 1, remainder =>
    divideBits count
      (if remainder &&& 1 == 1 then (remainder >>> 1) ^^^ 0xedb88320
        else remainder >>> 1)

/-- The remainders of all single bytes. -/
def byteRemainders : Array UInt32 :=
  Array.ofFn fun byte : Fin 256 => divideBits 8 (UInt32.ofNat byte.val)

/-- Take one more byte into the checksum. -/
def updateChecksum (sum : UInt32) (byte : UInt8) : UInt32 :=
  byteRemainders.getD ((sum ^^^ byte.toUInt32) &&& 0xff).toNat 0 ^^^
    (sum >>> 8)

/-- The checksum of some bytes. -/
def checksum (bytes : Array UInt8) : Nat :=
  (bytes.foldl updateChecksum 0xffffffff ^^^ 0xffffffff).toNat

end Gzip
end WordSwitch
