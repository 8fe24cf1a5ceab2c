import StaticCompanion.Text.Utf8

/-!
# Modified UTF-8

The encoding of string constants in class files. It differs from UTF-8 in two ways: the NUL
character takes two bytes, so that no byte is zero, and a supplementary character is written as
a surrogate pair of two groups of three bytes.
-/
namespace StaticCompanion.ModifiedUtf8

open Utf8

/-- The first half of the surrogate pair of a supplementary character. -/
def highSurrogate (code : Nat) : Nat := 0xD800 + (code - 0x10000) / 0x400

/-- The second half of the surrogate pair of a supplementary character. -/
def lowSurrogate (code : Nat) : Nat := 0xDC00 + (code - 0x10000) % 0x400

/-- The supplementary character of a surrogate pair. -/
def joinSurrogates (high low : Nat) : Nat := 0x10000 + (high - 0xD800) * 0x400 + (low - 0xDC00)

def isHighSurrogate (code : Nat) : Bool := 0xD800 ≤ code && code < 0xDC00

def isLowSurrogate (code : Nat) : Bool := 0xDC00 ≤ code && code < 0xE000

def encodeChar (char : Char) : Bytes :=
  let code := char.toNat
  if code = 0 then group2 0
  else if code < 0x80 then [UInt8.ofNat code]
  else if code < 0x800 then group2 code
  else if code < 0x10000 then group3 code
  else group3 (highSurrogate code) ++ group3 (lowSurrogate code)

def encode (text : List Char) : Bytes := text.flatMap encodeChar

def decode (bytes : Bytes) : Option (List Char) := go [] bytes
where
  go (text : List Char) : Bytes → Option (List Char)
    | [] => some text.reverse
    | a :: rest =>
      if 0 < a && a < 0x80 then go (Char.ofNat a.toNat :: text) rest
      else match rest with
      | [] => none
      | b :: rest =>
        if a == 0xC0 && b == 0x80 then go (Char.ofNat 0 :: text) rest
        else if isGroup2 a b then go (Char.ofNat (code2 a b) :: text) rest
        else match rest with
        | [] => none
        | c :: rest =>
          if !isGroup3 a b c then none
          else if !isSurrogate (code3 a b c) then go (Char.ofNat (code3 a b c) :: text) rest
          else match rest with
          | d :: e :: f :: rest =>
            if isHighSurrogate (code3 a b c) && isGroup3 d e f && isLowSurrogate (code3 d e f) then
              go (Char.ofNat (joinSurrogates (code3 a b c) (code3 d e f)) :: text) rest
            else none
          | _ => none

end StaticCompanion.ModifiedUtf8
