import StaticCompanion.Bytes

namespace StaticCompanion

namespace Crc32

/-- The polynomial, the coefficient of the highest power in the lowest bit. -/
def polynomial : UInt32 := 0xEDB88320

def stepBit (remainder : UInt32) : UInt32 :=
  if remainder &&& 1 = 1 then (remainder >>> 1) ^^^ polynomial else remainder >>> 1

def stepBits : (count : Nat) → UInt32 → UInt32
  | 0, remainder => remainder
  | count + 1, remainder => stepBits count (stepBit remainder)

def stepByte (remainder : UInt32) (byte : UInt8) : UInt32 :=
  stepBits 8 (remainder ^^^ byte.toUInt32)

end Crc32

/-- The checksum of a run of bytes. -/
def crc32 (bytes : Bytes) : UInt32 :=
  ~~~(bytes.foldl Crc32.stepByte 0xFFFFFFFF)

end StaticCompanion
