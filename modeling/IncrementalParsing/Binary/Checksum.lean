/-!
# Checksums

`checksum` is the cyclic redundancy check of 32 bits with the reflected polynomial `0xEDB88320`,
started from all ones and complemented at the end.  It goes through the bytes with a table of what
eight single-bit steps do to each byte.
-/

namespace IncrementalParsing

/-- One step: takes the lowest bit off. -/
def checksumBit (crc : UInt32) : UInt32 :=
  if crc &&& 1 == 1 then (crc >>> 1) ^^^ 0xEDB88320 else crc >>> 1

/-- As many steps as given. -/
def checksumBits : (count : Nat) → UInt32 → UInt32
  | 0, crc => crc
  | count + 1, crc => checksumBits count (checksumBit crc)

/-- What eight steps make of each byte. -/
def checksumTable : Array UInt32 :=
  (Array.range 256).map fun b => checksumBits 8 (UInt32.ofNat b)

/-- The state after one more byte. -/
def checksumByte (crc : UInt32) (byte : UInt8) : UInt32 :=
  checksumTable.getD ((crc ^^^ byte.toUInt32) &&& 0xFF).toNat 0 ^^^ (crc >>> 8)

/-- The check of some bytes. -/
def checksum (bytes : ByteArray) : Nat :=
  (bytes.foldl checksumByte 0xFFFFFFFF ^^^ 0xFFFFFFFF).toNat

end IncrementalParsing
