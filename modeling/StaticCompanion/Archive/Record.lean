import StaticCompanion.Archive.Basic
import StaticCompanion.Archive.FurtherField

/-!
# Records of an archive

An archive holds the data of its entries, each behind a local record, then its directory with a
record for each entry, and last an end record that tells where the directory starts. Every record
starts with a signature, and all numbers have their lowest byte first. If the end record is too
narrow for its numbers, a wide one stands in front of it, and a locator between the two.
-/
namespace StaticCompanion.Archive

def littleEndian (width n : Nat) : Bytes := (bigEndian width n).reverse

/-- A run of bytes of a file, as far as the file has them. -/
def run (file : ByteArray) (offset count : Nat) : Bytes :=
  (file.extract (min offset file.size) (min (offset + count) file.size)).toList

def slice? (file : ByteArray) (offset count : Nat) : Option Bytes :=
  if offset + count ≤ file.size then some (file.extract offset (offset + count)).toList else none

/-- Signatures of records. -/
def localSignature : Bytes := [0x50, 0x4B, 3, 4]

@[inherit_doc localSignature]
def directorySignature : Bytes := [0x50, 0x4B, 1, 2]

@[inherit_doc localSignature]
def endSignature : Bytes := [0x50, 0x4B, 5, 6]

@[inherit_doc localSignature]
def wideEndSignature : Bytes := [0x50, 0x4B, 6, 6]

@[inherit_doc localSignature]
def locatorSignature : Bytes := [0x50, 0x4B, 6, 7]

/-- The length of a local record in front of the name. -/
def localLength : Nat := 30

def directoryLength : Nat := 46

/-- The length of an end record in front of the comment. -/
def endLength : Nat := 22

def wideEndLength : Nat := 56

/-- The length of what a wide end record does not count in its own length. -/
def wideEndHead : Nat := 12

def locatorLength : Nat := 20

def record? (file : ByteArray) (signature : Bytes) (offset length : Nat) : Option Bytes := do
  let fields ← slice? file offset length
  if fields.take signature.length = signature then some fields else none

structure DirectoryEnd where
  /-- The number of this part of the archive. -/
  part : Nat
  firstPart : Nat
  countHere : Nat
  count : Nat
  start : Nat

/-- The end record at an offset. Its comment has to fit. -/
def DirectoryEnd.at? (file : ByteArray) (offset : Nat) : Option DirectoryEnd := do
  let fields ← record? file endSignature offset endLength
  if file.size < offset + endLength + number fields 20 2 then none
  else
    return {
      part := number fields 4 2, firstPart := number fields 6 2, countHere := number fields 8 2,
      count := number fields 10 2, start := number fields 16 4 }

/-- Whether a number may be too large for its place in the end record. -/
def DirectoryEnd.isFull (stop : DirectoryEnd) : Bool :=
  stop.count = 0xFFFF || stop.start = 0xFFFFFFFF

structure Locator where
  firstPart : Nat
  /-- Where the wide end record starts, counted from where the archive starts. -/
  wideEndStart : Nat
  parts : Nat

def Locator.at? (file : ByteArray) (offset : Nat) : Option Locator := do
  let fields ← record? file locatorSignature offset locatorLength
  return {
    firstPart := number fields 4 4, wideEndStart := number fields 8 8, parts := number fields 16 4 }

structure WideEnd extends DirectoryEnd where
  length : Nat
  madeBy : Nat
  needed : Nat

def WideEnd.at? (file : ByteArray) (offset : Nat) : Option WideEnd := do
  let fields ← record? file wideEndSignature offset wideEndLength
  return {
    length := number fields 4 8, madeBy := number fields 12 2, needed := number fields 14 2,
    part := number fields 16 4, firstPart := number fields 20 4, countHere := number fields 24 8,
    count := number fields 32 8, start := number fields 48 8 }

/-- The directory's record at an offset, and its length. -/
def directoryRecord? (file : ByteArray) (offset : Nat) : Option (DirectoryRecord × Nat) := do
  let fields ← record? file directorySignature offset directoryLength
  let nameLength := number fields 28 2
  let furtherLength := number fields 30 2
  let commentLength := number fields 32 2
  let name ← slice? file (offset + directoryLength) nameLength
  let further ← slice? file (offset + directoryLength + nameLength) furtherLength
  let comment ← slice? file (offset + directoryLength + nameLength + furtherLength) commentLength
  let flags := number fields 8 2
  let isUtf8 := flags.testBit 11
  let narrow : DirectoryRecord :=
    { nameBytes := name, name := nameText isUtf8 name
      commentBytes := Utf8.encode (nameText isUtf8 comment).toList, isEncrypted := flags.testBit 0
      isWrapped := false, method := number fields 10 2, crc := number fields 16 4
      packedSize := number fields 20 4, size := number fields 24 4
      localStart := number fields 42 4 }
  let record ← narrow.extend further
  return (record, directoryLength + nameLength + furtherLength + commentLength)

/-- Where the data behind the local record at an offset starts. -/
def dataStart? (file : ByteArray) (offset : Nat) : Option Nat := do
  let fields ← record? file localSignature offset localLength
  return offset + localLength + number fields 26 2 + number fields 28 2

end StaticCompanion.Archive
