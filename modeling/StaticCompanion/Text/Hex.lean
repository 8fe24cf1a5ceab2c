import StaticCompanion.Bytes

namespace StaticCompanion

def lowerHex (byte : UInt8) : String :=
  String.ofList [Nat.digitChar (byte.toNat / 16), Nat.digitChar (byte.toNat % 16)]

def upperHex (byte : UInt8) : String :=
  (lowerHex byte).map Char.toUpper

/-- The hexadecimal text of a run of bytes, without separators. -/
def hexDump (bytes : Bytes) : String :=
  String.ofList (bytes.flatMap fun byte =>
    [Nat.digitChar (byte.toNat / 16), Nat.digitChar (byte.toNat % 16)])

end StaticCompanion
