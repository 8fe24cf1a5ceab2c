import Std.Data.ExtTreeMap
import StaticCompanion.Archive.Crc32
import StaticCompanion.Archive.Directory
import StaticCompanion.Archive.Inflate

/-!
# Reading an archive

The directory alone tells which entries there are. Of two entries with one name, the later's data
stands at the earlier's place. An entry's own place in the file is looked at for its data only, so
an entry that cannot be read does not keep the others from being read.
-/
namespace StaticCompanion.Archive

inductive Packing where
  | stored
  | packed
  deriving DecidableEq, Repr

def Packing.ofMethod? : Nat → Option Packing
  | 0 => some .stored
  | 8 => some .packed
  | _ => none

def DirectoryRecord.packing? (record : DirectoryRecord) : Option Packing :=
  if record.isWrapped then none else Packing.ofMethod? record.method

/-- The data that a packing was given. -/
def Packing.unpack (bytes : Bytes) : Packing → Except ArchiveFault Bytes
  | .stored => .ok bytes
  | .packed =>
    match inflate bytes with
    | some data => .ok data
    | none => .error .corruptData

/-- The data of an entry, which has to have the checksum that the directory tells. Data that should
go on behind the end of the file ends there. -/
def dataOf (file : ByteArray) (record : DirectoryRecord) : Except ArchiveFault Bytes := do
  if record.isEncrypted then throw .encrypted
  let some dataStart := dataStart? file record.localStart | throw .misplaced
  let some packing := record.packing? | throw .unknownMethod
  if isDirectoryName record.name then return []
  let data ← packing.unpack (run file dataStart record.packedSize)
  if (crc32 data).toNat ≠ record.crc then throw .wrongChecksum
  return data

/-- One record of each name, at the place of the first, with what the last tells. -/
def distinct (records : List DirectoryRecord) : List DirectoryRecord :=
  let last := Std.ExtTreeMap.ofList (records.map fun record => (record.name, record))
  (records.map (·.name)).eraseDups.filterMap (last[·]?)

def ofFile (file : ByteArray) : Except ArchiveFault Archive :=
  match directory? file with
  | none => .error .noDirectory
  | some records => .ok ((distinct records).map fun record => ⟨record.name, dataOf file record⟩)

end StaticCompanion.Archive
