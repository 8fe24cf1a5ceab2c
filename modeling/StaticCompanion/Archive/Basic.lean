import StaticCompanion.Bytes

namespace StaticCompanion

inductive ArchiveFault where
  | missing
  | noDirectory
  /-- The entry's data is not where the directory tells. -/
  | misplaced
  | encrypted
  | unknownMethod
  | corruptData
  | wrongChecksum
  | duplicateName (name : String)
  | tooLarge
  deriving DecidableEq, Repr

namespace ArchiveFault

/-- Whether the fault is about the archive's make, not about getting at its bytes. -/
def isStructural : ArchiveFault → Bool
  | missing | corruptData | wrongChecksum => false
  | noDirectory | misplaced | encrypted | unknownMethod | duplicateName _ | tooLarge => true

def cause : ArchiveFault → String
  | missing => "there is no archive"
  | noDirectory => "there is no directory of entries"
  | misplaced => "an entry is not where the directory tells"
  | encrypted => "an entry is encrypted"
  | unknownMethod => "an entry is packed in an unknown way"
  | corruptData => "the data of an entry is corrupt"
  | wrongChecksum => "the data of an entry has another checksum"
  | duplicateName name => s!"two entries are named {name}"
  | tooLarge => "the archive is too large"

def message (fault : ArchiveFault) : String :=
  if fault.isStructural then s!"Archive error: {fault.cause}" else s!"IO error: {fault.cause}"

end ArchiveFault

structure ArchiveEntry where
  name : String
  /-- The entry's data; a directory has none. -/
  data : Except ArchiveFault Bytes

/-- Whether a name stands for a directory. -/
def isDirectoryName (name : String) : Bool :=
  match name.toList.getLast? with
  | some last => last = '/' || last = '\\'
  | none => false

def ArchiveEntry.isDirectory (entry : ArchiveEntry) : Bool := isDirectoryName entry.name

abbrev Archive := List ArchiveEntry

structure NamedData where
  name : String
  data : Bytes
  deriving DecidableEq, Repr

/-- Adds a piece of data at the end of those to write, unless its name is taken. -/
def addNamed (written : List NamedData) (item : NamedData) :
    Except ArchiveFault (List NamedData) :=
  if written.any (·.name = item.name) then .error (.duplicateName item.name)
  else .ok (written ++ [item])

end StaticCompanion
