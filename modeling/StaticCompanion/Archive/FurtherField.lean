import StaticCompanion.Archive.CodePage437
import StaticCompanion.Archive.Crc32
import StaticCompanion.Text.Utf8

/-!
# Further fields of an entry

An entry's record in the directory ends in further fields, each a kind, a length and a content.
They widen numbers that are too large for their place, or tell a name or a comment in UTF-8. Fields
that end too early are passed over, with all behind them; fields that contradict themselves are
refused.
-/
namespace StaticCompanion.Archive

def number (fields : Bytes) (place width : Nat) : Nat :=
  ofBigEndian ((fields.drop place).take width).reverse

/-- The text of a name, which is UTF-8 if it is marked so. -/
def nameText (isUtf8 : Bool) (bytes : Bytes) : String :=
  String.ofList (if isUtf8 then Utf8.decodeLossy bytes else CodePage437.decode bytes)

/-- An entry as its directory tells it. -/
structure DirectoryRecord where
  nameBytes : Bytes
  name : String
  commentBytes : Bytes
  isEncrypted : Bool
  /-- Whether the packed data is wrapped in a way that takes a password to undo. -/
  isWrapped : Bool
  method : Nat
  crc : Nat
  packedSize : Nat
  size : Nat
  /-- Where the local record starts, counted from where the archive starts. -/
  localStart : Nat

namespace FurtherField

/-- Why fields are not read to their end. -/
inductive Stop where
  | ended
  | refused
  deriving DecidableEq, Repr

structure State where
  rest : Bytes
  record : DirectoryRecord

abbrev FieldM (α : Type) := EStateM Stop State α

/-- What fields are about. -/
inductive Kind where
  | wideNumbers
  | fineTimes
  | times
  | wrapping
  | comment
  | name
  | other
  deriving DecidableEq, Repr

def Kind.ofNumber : Nat → Kind
  | 0x0001 => .wideNumbers
  | 0x000A => .fineTimes
  | 0x5455 => .times
  | 0x9901 => .wrapping
  | 0x6375 => .comment
  | 0x7075 => .name
  | _ => .other

/-- Takes a number of bytes; too few are used up. -/
def take (count : Nat) : FieldM Bytes := do
  let state ← get
  if state.rest.length < count then throw .ended
  else do
    set { state with rest := state.rest.drop count }
    return state.rest.take count

def takeNumber (width : Nat) : FieldM Nat := do return number (← take width) 0 width

def require (condition : Bool) : FieldM Unit := if condition then return else throw .refused

def change (change : DirectoryRecord → DirectoryRecord) : FieldM Unit :=
  modify fun state => { state with record := change state.record }

def widened : Nat := 0xFFFFFFFF

/-- Takes a number of 64 bits in the place of a narrow one, if there is one; gives back how many
bytes that takes. -/
def widen (isLong : Bool) (narrow : DirectoryRecord → Nat)
    (wide : Nat → DirectoryRecord → DirectoryRecord) : FieldM Nat := do
  if isLong || narrow (← get).record = widened then
    let value ← takeNumber 8
    change (wide value)
    return 8
  else return 0

/-- Numbers that are too large for their place, in the order of the places. A field that is long
enough for all of them tells all. -/
def wideNumbers (length : Nat) : FieldM Unit := do
  let isLong := 24 ≤ length
  let first ← widen isLong (·.size) fun value record => { record with size := value }
  let second ← widen isLong (·.packedSize) fun value record => { record with packedSize := value }
  let third ← widen isLong (·.localStart) fun value record => { record with localStart := value }
  require (first + second + third ≤ length)
  let _ ← take (length - (first + second + third))

/-- Three times in one group of a fixed length. -/
def fineTimes (length : Nat) : FieldM Unit := do
  require (length = 32)
  let _ ← take 4
  require ((← takeNumber 2) = 1)
  require ((← takeNumber 2) = 24)
  let _ ← take 24

/-- The times that are marked, of which the first may stand alone. Marks without a meaning count for
the length only. -/
def times (length : Nat) : FieldM Unit := do
  let marks ← takeNumber 1
  let marked := ((List.range 8).filter marks.testBit).length
  require (length = 5 || length = 1 + 4 * marked)
  if marks.testBit 0 || length = 5 then let _ ← take 4
  if marks.testBit 1 && 5 < length then let _ ← take 4
  if marks.testBit 2 && 5 < length then let _ ← take 4

/-- How the packed data is wrapped, and how it is packed inside. -/
def wrapping (length : Nat) : FieldM Unit := do
  require (length = 7)
  let version ← takeNumber 2
  let maker ← takeNumber 2
  let strength ← takeNumber 1
  let method ← takeNumber 2
  require (maker = 0x4541)
  require (version = 1 || version = 2)
  require (strength = 1 || strength = 2 || strength = 3)
  change fun record => { record with isWrapped := true, method }

/-- A text in UTF-8 that takes the place of another, whose checksum it tells. -/
def replacement (old : DirectoryRecord → Bytes) (length : Nat) : FieldM (Bytes × List Char) := do
  let _ ← take 1
  let crc ← takeNumber 4
  require (5 ≤ length)
  let bytes ← take (length - 5)
  require ((crc32 (old (← get).record)).toNat = crc)
  match Utf8.decode bytes with
  | some text => return (bytes, text)
  | none => throw .refused

def content (kind : Kind) (length : Nat) : FieldM Unit := do
  match kind with
  | .wideNumbers => wideNumbers length
  | .fineTimes => fineTimes length
  | .times => times length
  | .wrapping => wrapping length
  | .comment =>
    let (bytes, _) ← replacement (·.commentBytes) length
    change fun record => { record with commentBytes := bytes }
  | .name =>
    let (bytes, text) ← replacement (·.nameBytes) length
    change fun record => { record with nameBytes := bytes, name := String.ofList text }
  | .other => let _ ← take length

/-- The fields that are left, at most `budget` of them. -/
def fields : (budget : Nat) → FieldM Unit
  | 0 => return
  | budget + 1 => do
    let kind ← takeNumber 2
    let length ← takeNumber 2
    content (.ofNumber kind) length
    fields budget

end FurtherField

/-- The method of wrapped data, whose further fields have to tell how it is wrapped. -/
def wrappedMethod : Nat := 99

/-- An entry with what its further fields tell, unless they are refused. -/
def DirectoryRecord.extend (record : DirectoryRecord) (further : Bytes) :
    Option DirectoryRecord :=
  match FurtherField.fields further.length ⟨further, record⟩ with
  | .error .refused _ => none
  | .ok () state | .error .ended state =>
    if state.record.method = wrappedMethod ∧ !state.record.isWrapped then none
    else some state.record

end StaticCompanion.Archive
