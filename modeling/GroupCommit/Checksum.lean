import GroupCommit.Bytes

/-!
# CRC-32

The checksum of a record's payload: the cyclic redundancy check of IEEE 802.3, in its reflected form,
started from all ones and complemented at the end. `Crc32.shift` divides by the polynomial one bit at
a time; `Crc32.feed` takes in one byte.
-/

namespace GroupCommit

namespace Crc32

/-- The generator polynomial, bit-reversed. -/
def polynomial : UInt32 := 0xEDB88320

/-- One step of the division: shift out the low bit and subtract the polynomial if it was set. -/
def shift (register : UInt32) : UInt32 :=
  if register &&& 1 = 1 then (register >>> 1) ^^^ polynomial else register >>> 1

/-- The register after one more byte. -/
def feed (register : UInt32) (byte : UInt8) : UInt32 :=
  Nat.repeat shift 8 (register ^^^ byte.toUInt32)

end Crc32

/-- The CRC-32 of a byte string. -/
def checksum (data : Bytes) : UInt32 :=
  (data.foldl Crc32.feed 0xFFFFFFFF) ^^^ 0xFFFFFFFF

/-- The check value of the standard: the checksum of the digits one to nine. -/
example : checksum "123456789".toUTF8.toList = 0xCBF43926 := by decide +kernel

end GroupCommit
