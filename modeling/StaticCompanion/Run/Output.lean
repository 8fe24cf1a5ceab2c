import StaticCompanion.Relocation.Companion
import StaticCompanion.Relocation.Omission
import StaticCompanion.Relocation.Retarget
import StaticCompanion.Relocation.TypeSubstitution
import StaticCompanion.Run.Fault
import StaticCompanion.Run.Options
import StaticCompanion.Run.Pattern

/-!
# The output of a run

The output has the entries of the input in their order, without directories. A selected class is
adapted, another is copied or dropped. Right behind the place of a class stands its companion,
if the class is selected or the companion's own name is.
-/
namespace StaticCompanion

/-- A class in its final form: without omitted annotations, using moved members where they are
now, and with its types replaced. -/
def ClassFile.adapt (file : ClassFile) (options : Options) (analysis : Analysis) :
    Except RelocationFault ClassFile := do
  let file ← file.omitAnnotations options.omitted
  let file ← file.retarget analysis options.owners
  file.replaceTypes analysis

namespace Output

/-- A step that adds to the entries written so far. -/
abbrev WriteM (α : Type) := StateT (List NamedData) (Except RunFault) α

def put (name : String) (data : Bytes) : WriteM Unit := fun written => do
  return ((), ← addNamed written ⟨name, data⟩)

def putAdapted (options : Options) (analysis : Analysis) (name : String) (file : ClassFile) :
    WriteM Unit := do
  let file ← file.adapt options analysis
  let data ← (file.toBytes : Except RelocationFault Bytes)
  put name data

def putClass (options : Options) (analysis : Analysis) (isSelected : Bool) (name : String)
    (data : Bytes) (file : ClassFile) : WriteM Unit := do
  if isSelected then putAdapted options analysis name file
  else if options.unselected = .copied then put name data

/-- Writes a companion, if its class or its own name is selected. -/
def putCompanion (options : Options) (analysis : Analysis) (isSelected : Bool)
    (companion : ClassFile) : WriteM Unit := do
  let owner ← (companion.name : Except RelocationFault String)
  let name := owner ++ classSuffix
  if isSelected || options.patterns.any fun pattern => (Pattern.ofText pattern).selects name then
    putAdapted options analysis name companion

def putEntry (options : Options) (analysis : Analysis) (selected : NameSet)
    (entry : ArchiveEntry) : WriteM Unit := do
  let data ← entry.data
  if entry.isDirectory then return
  if !isClassEntry entry.name then
    put entry.name data
    return
  let file ← (ClassFile.ofBytes data : Except RelocationFault ClassFile)
  let companion ← file.companion analysis
  let isSelected := selected.contains entry.name
  putClass options analysis isSelected entry.name data file
  if let some companion := companion then
    putCompanion options analysis isSelected companion

end Output

def outputEntries (options : Options) (analysis : Analysis) (selected : NameSet)
    (archive : Archive) : Except RunFault (List NamedData) := do
  let ((), written) ← (archive.forM (Output.putEntry options analysis selected)).run []
  return written

end StaticCompanion
