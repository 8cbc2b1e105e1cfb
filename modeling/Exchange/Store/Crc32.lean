import Exchange.Framework.LittleEndian

/-!
# The checksum of a record

CRC-32 as `store/crc32.hpp` computes it, one byte at a time through a table of
256 words. The table is a function of its index here: what the source builds at
compile time is what the function computes.
-/

namespace Exchange.Crc32

open Framework

def polynomial : UInt32 := 0xEDB88320

/-- One bit of `makeCrcTable`. -/
def shiftOut (value : UInt32) : UInt32 :=
  if value &&& 1 ≠ 0 then (value >>> 1) ^^^ polynomial else value >>> 1

/-- The table `makeCrcTable` builds. -/
def table (index : UInt8) : UInt32 := shiftOut^[8] index.toUInt32

/-- One turn of the loop in `crc32`. -/
def update (crc : UInt32) (byte : UInt8) : UInt32 :=
  (crc >>> 8) ^^^ table ((crc ^^^ byte.toUInt32) &&& 0xFF).toUInt8

def crc32 (bytes : Bytes) : UInt32 := bytes.foldl update 0xFFFFFFFF ^^^ 0xFFFFFFFF

/-- The check value of the IEEE polynomial, over the digits 1 to 9. -/
example : crc32 [0x31, 0x32, 0x33, 0x34, 0x35, 0x36, 0x37, 0x38, 0x39] = 0xCBF43926 := by
  decide +kernel

end Exchange.Crc32
