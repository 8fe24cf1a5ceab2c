import StaticCompanion.Bytes
import StaticCompanion.Text.Hex

/-!
# Binary formats

A `Format` reads a value off the front of a run of bytes and writes it again. The layouts of the
class file are built from numbers, counted lists and counted byte runs by `seq` and `map`, so a
law that each building block keeps holds for every layout.
-/
namespace StaticCompanion

/-- What stops a value from being read. -/
inductive ReadFault where
  | endOfInput
  | badMagic
  | unknownEntryTag (tag : UInt8)
  /-- The last constant of the pool would take one slot too many. -/
  | poolOverrun
  | unknownElementTag (tag : UInt8)
  | unknownTargetType (number : UInt8)
  deriving DecidableEq, Repr

def ReadFault.message : ReadFault → String
  | endOfInput => "failed to fill whole buffer"
  | badMagic => "This is not a Java class file"
  | unknownEntryTag tag => s!"Unexpected constant pool tag {tag.toNat}"
  | poolOverrun => "A long or double entry overflows the constant pool"
  | unknownElementTag tag => s!"Invalid element value tag {tag.toNat}"
  | unknownTargetType number => s!"Invalid type annotation target type 0x{lowerHex number}"

inductive WriteFault where
  /-- A list or a byte run is longer than its count can tell. -/
  | outOfRange
  deriving DecidableEq, Repr

def WriteFault.message : WriteFault → String
  | outOfRange => "Out of range error: number too large to fit in target type"

/-- Takes a value off the front of a run of bytes. -/
abbrev Reader (α : Type) := StateT Bytes (Except ReadFault) α

/-- A value's layout in bytes, in both directions. -/
structure Format (α : Type) where
  read : Reader α
  write : α → Except WriteFault Bytes

namespace Reader

def take (count : Nat) : Reader Bytes := fun bytes =>
  match splitExact count bytes with
  | some taken => .ok taken
  | none => .error .endOfInput

def number (width : Nat) : Reader Nat :=
  ofBigEndian <$> take width

def byte : Reader UInt8
  | [] => .error .endOfInput
  | byte :: rest => .ok (byte, rest)

def many {α : Type} (item : Reader α) (count : Nat) : Reader (List α) := fun bytes =>
  go count [] bytes
where
  go : Nat → List α → Bytes → Except ReadFault (List α × Bytes)
    | 0, taken, bytes => .ok (taken.reverse, bytes)
    | count + 1, taken, bytes =>
      match item bytes with
      | .ok (value, rest) => go count (value :: taken) rest
      | .error fault => .error fault

end Reader

/-- The bytes of a count of `width` bytes, unless the count is too large for it. -/
def writeCount (width count : Nat) : Except WriteFault Bytes :=
  if count < span width then .ok (bigEndian width count) else .error .outOfRange

namespace Format

def u8 : Format UInt8 where
  read := Reader.byte
  write value := .ok [value]

def u16 : Format UInt16 where
  read := UInt16.ofNat <$> Reader.number 2
  write value := .ok (bigEndian 2 value.toNat)

def u32 : Format UInt32 where
  read := UInt32.ofNat <$> Reader.number 4
  write value := .ok (bigEndian 4 value.toNat)

def u64 : Format UInt64 where
  read := UInt64.ofNat <$> Reader.number 8
  write value := .ok (bigEndian 8 value.toNat)

/-- A run of bytes behind its length in `width` bytes. -/
def blob (width : Nat) : Format Bytes where
  read := do Reader.take (← Reader.number width)
  write bytes := do return (← writeCount width bytes.length) ++ bytes

def seq {α β : Type} (first : Format α) (second : Format β) : Format (α × β) where
  read := do return (← first.read, ← second.read)
  write pair := do return (← first.write pair.1) ++ (← second.write pair.2)

/-- The same bytes as a value of another type. -/
def map {α β : Type} (format : Format α) (into : α → β) (back : β → α) : Format β where
  read := into <$> format.read
  write value := format.write (back value)

def list {α : Type} (width : Nat) (item : Format α) : Format (List α) where
  read := do Reader.many item.read (← Reader.number width)
  write values := do
    let count ← writeCount width values.length
    return count ++ (← values.mapM item.write).flatten

end Format

end StaticCompanion
