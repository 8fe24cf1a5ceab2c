import StaticCompanion.Bytes

namespace StaticCompanion.Utf8

def isTail (byte : UInt8) : Bool := byte.toNat / 64 == 2

def code2 (a b : UInt8) : Nat := a.toNat % 32 * 64 + b.toNat % 64

def code3 (a b c : UInt8) : Nat := a.toNat % 16 * 4096 + b.toNat % 64 * 64 + c.toNat % 64

def code4 (a b c d : UInt8) : Nat :=
  a.toNat % 8 * 262144 + b.toNat % 64 * 4096 + c.toNat % 64 * 64 + d.toNat % 64

/-- A group of two bytes whose number needs two. -/
def isGroup2 (a b : UInt8) : Bool :=
  a.toNat / 32 == 6 && isTail b && 0x80 ≤ code2 a b

/-- A group of three bytes whose number needs three; it may be half of a surrogate pair. -/
def isGroup3 (a b c : UInt8) : Bool :=
  a.toNat / 16 == 14 && isTail b && isTail c && 0x800 ≤ code3 a b c

/-- A group of four bytes whose number needs four and is a code point. -/
def isGroup4 (a b c d : UInt8) : Bool :=
  a.toNat / 8 == 30 && isTail b && isTail c && isTail d &&
    0x10000 ≤ code4 a b c d && code4 a b c d < 0x110000

/-- Half of a surrogate pair, which is no character. -/
def isSurrogate (code : Nat) : Bool := 0xD800 ≤ code && code < 0xE000

def group2 (code : Nat) : Bytes :=
  [UInt8.ofNat (192 + code / 64), UInt8.ofNat (128 + code % 64)]

def group3 (code : Nat) : Bytes :=
  [UInt8.ofNat (224 + code / 4096), UInt8.ofNat (128 + code / 64 % 64),
    UInt8.ofNat (128 + code % 64)]

def group4 (code : Nat) : Bytes :=
  [UInt8.ofNat (240 + code / 262144), UInt8.ofNat (128 + code / 4096 % 64),
    UInt8.ofNat (128 + code / 64 % 64), UInt8.ofNat (128 + code % 64)]

def encodeChar (char : Char) : Bytes :=
  let code := char.toNat
  if code < 0x80 then [UInt8.ofNat code]
  else if code < 0x800 then group2 code
  else if code < 0x10000 then group3 code
  else group4 code

def encode (text : List Char) : Bytes := text.flatMap encodeChar

/-- Whether two bytes can open a group of three that is a character. -/
def opens3 (a b : UInt8) : Bool := isGroup3 a b 0x80 && !isSurrogate (code3 a b 0x80)

def opens4 (a b : UInt8) : Bool := isGroup4 a b 0x80 0x80

def replacementChar : Char := '\uFFFD'

/-- The text of a run of bytes. Bytes that open a character which does not end stand for one
replacement character, and so does any other byte that is out of place. -/
def decodeLossy : Bytes → List Char
  | [] => []
  | a :: rest =>
    if a < 0x80 then Char.ofNat a.toNat :: decodeLossy rest
    else match rest with
    | [] => [replacementChar]
    | b :: rest₁ =>
      if isGroup2 a b then Char.ofNat (code2 a b) :: decodeLossy rest₁
      else if opens3 a b then
        match rest₁ with
        | [] => [replacementChar]
        | c :: rest₂ =>
          if isTail c then Char.ofNat (code3 a b c) :: decodeLossy rest₂
          else replacementChar :: decodeLossy (c :: rest₂)
      else if opens4 a b then
        match rest₁ with
        | [] => [replacementChar]
        | c :: rest₂ =>
          if !isTail c then replacementChar :: decodeLossy (c :: rest₂)
          else match rest₂ with
          | [] => [replacementChar]
          | d :: rest₃ =>
            if isTail d then Char.ofNat (code4 a b c d) :: decodeLossy rest₃
            else replacementChar :: decodeLossy (d :: rest₃)
      else replacementChar :: decodeLossy (b :: rest₁)
termination_by bytes => bytes.length

def decode (bytes : Bytes) : Option (List Char) := go [] bytes
where
  go (text : List Char) : Bytes → Option (List Char)
    | [] => some text.reverse
    | a :: rest =>
      if a < 0x80 then go (Char.ofNat a.toNat :: text) rest
      else match rest with
      | [] => none
      | b :: rest =>
        if isGroup2 a b then go (Char.ofNat (code2 a b) :: text) rest
        else match rest with
        | [] => none
        | c :: rest =>
          if isGroup3 a b c && !isSurrogate (code3 a b c) then
            go (Char.ofNat (code3 a b c) :: text) rest
          else match rest with
          | [] => none
          | d :: rest =>
            if isGroup4 a b c d then go (Char.ofNat (code4 a b c d) :: text) rest
            else none

end StaticCompanion.Utf8
