import StaticCompanion.Archive.Crc32
import StaticCompanion.Archive.Record

namespace StaticCompanion.Archive

/-- What an archive tells about an entry besides its name and its data. -/
structure Stamp where
  year : Nat
  month : Nat
  day : Nat
  hour : Nat
  minute : Nat
  second : Nat
  mode : Nat
  deriving DecidableEq, Repr

namespace Stamp

/-- The stamp of every entry that is written: the first of January 2010, an ordinary file that
its owner may change and everyone may read. -/
def usual : Stamp := ⟨2010, 1, 1, 0, 0, 0, 0o100644⟩

def dateField (stamp : Stamp) : Nat :=
  (stamp.year - 1980) * 512 + stamp.month * 32 + stamp.day

def timeField (stamp : Stamp) : Nat :=
  stamp.hour * 2048 + stamp.minute * 32 + stamp.second / 2

def padded (width n : Nat) : String :=
  let digits := Nat.toDigits 10 n
  String.ofList (List.replicate (width - digits.length) '0' ++ digits)

def render (stamp : Stamp) : String :=
  let date := "-".intercalate [padded 4 stamp.year, padded 2 stamp.month, padded 2 stamp.day]
  let time := ":".intercalate [padded 2 stamp.hour, padded 2 stamp.minute, padded 2 stamp.second]
  s!"{date} {time}"

end Stamp

/-- The bytes of a name, and the flag that marks them as UTF-8 where that matters. -/
def nameField (name : String) : Nat × Bytes :=
  (if name.toList.all (·.toNat < 0x80) then 0 else 0x800, Utf8.encode name.toList)

/-- The fields that both records of an entry share, from the version on. -/
def sharedFields (stamp : Stamp) (item : NamedData) : Bytes :=
  let (flags, name) := nameField item.name
  littleEndian 2 20 ++ littleEndian 2 flags ++ littleEndian 2 0 ++
    littleEndian 2 stamp.timeField ++ littleEndian 2 stamp.dateField ++
    littleEndian 4 (crc32 item.data).toNat ++ littleEndian 4 item.data.length ++
    littleEndian 4 item.data.length ++ littleEndian 2 name.length ++ littleEndian 2 0

def localRecord (stamp : Stamp) (item : NamedData) : Bytes :=
  localSignature ++ sharedFields stamp item ++ (nameField item.name).2

/-- The mark of a maker whose entries tell who may use them. -/
def maker : Nat := 3 * 256 + 20

def directoryRecord (stamp : Stamp) (item : NamedData) (offset : Nat) : Bytes :=
  directorySignature ++ littleEndian 2 maker ++ sharedFields stamp item ++ littleEndian 2 0 ++
    littleEndian 2 0 ++ littleEndian 2 0 ++ littleEndian 4 (stamp.mode * 65536) ++
    littleEndian 4 offset ++ (nameField item.name).2

def endRecord (count size start : Nat) : Bytes :=
  endSignature ++ littleEndian 2 0 ++ littleEndian 2 0 ++ littleEndian 2 count ++
    littleEndian 2 count ++ littleEndian 4 size ++ littleEndian 4 start ++ littleEndian 2 0

/-- An archive that is being put together. -/
structure Draft where
  body : ByteArray
  directory : ByteArray
  count : Nat

namespace Draft

def append (file : ByteArray) (bytes : Bytes) : ByteArray := bytes.foldl ByteArray.push file

def add (stamp : Stamp) (draft : Draft) (item : NamedData) : Draft where
  body := append (append draft.body (localRecord stamp item)) item.data
  directory := append draft.directory (directoryRecord stamp item draft.body.size)
  count := draft.count + 1

def finish (draft : Draft) : ByteArray :=
  append (draft.body ++ draft.directory)
    (endRecord draft.count draft.directory.size draft.body.size)

end Draft

def toFile (items : List NamedData) : Except ArchiveFault ByteArray :=
  let draft := items.foldl (Draft.add Stamp.usual) ⟨.empty, .empty, 0⟩
  if draft.count < 0xFFFF ∧ draft.body.size + draft.directory.size < 0xFFFFFFFF then
    .ok draft.finish
  else
    .error .tooLarge

end StaticCompanion.Archive
