import StaticCompanion.Relocation.Scan
import StaticCompanion.Run.Output

/-!
# A run over an archive

A run has three steps, taken in order and once each: the classes to adapt are selected by name,
every class is scanned for members that move, and the output is put together. A step sets what it
has found at its end, when nothing can fail any more.
-/
namespace StaticCompanion

structure Job where
  input : Except ArchiveFault Archive
  options : Options

/-- A step of a run. -/
inductive Step where
  | select
  | scan
  | sink
  deriving DecidableEq, Repr

def Step.expected : Step → Phase
  | select => .idle
  | scan => .matched
  | sink => .scanned

/-- The place that the output is written to. -/
structure Target where
  opened : Except ArchiveFault Unit
  /-- Whether these entries, and the end of the archive, can be written. -/
  written : List NamedData → Except ArchiveFault Unit

/-- A place that takes any output. -/
def Target.memory : Target := ⟨.ok (), fun _ => .ok ()⟩

structure Session where
  phase : Phase
  /-- The names of the entries to adapt. -/
  selected : NameSet
  analysis : Analysis
  output : Option (List NamedData)

namespace Job

def selection (job : Job) (archive : Archive) : Except RunFault NameSet :=
  let classes := (archive.map ArchiveEntry.name).filter isClassEntry
  (selectEntries classes job.options.patterns).mapError .unmatched

/-- Scans an entry. A directory is only opened, and what is no class is only read. -/
def scanEntry (job : Job) (analysis : Analysis) (entry : ArchiveEntry) :
    Except RunFault Analysis := do
  let data ← entry.data
  if entry.isDirectory || !isClassEntry entry.name then return analysis
  let file ← (ClassFile.ofBytes data : Except RelocationFault ClassFile)
  Scan.extend job.options.supported analysis file

def analysis (job : Job) (archive : Archive) : Except RunFault Analysis :=
  archive.foldlM (scanEntry job) { Analysis.empty with types := job.options.types }

end Job

namespace Session

def start : Session := ⟨.idle, ∅, .empty, none⟩

def next (job : Job) (session : Session) (step : Step) : Except RunFault Session := do
  if session.phase ≠ step.expected then throw (.outOfOrder step.expected session.phase)
  let archive ← job.input
  match step with
  | .select => return { session with phase := .matched, selected := ← job.selection archive }
  | .scan => return { session with phase := .scanned, analysis := ← job.analysis archive }
  | .sink =>
    let output ← outputEntries job.options session.analysis session.selected archive
    return { session with phase := .sunk, selected := ∅, output := some output }

def expect (phase : Phase) : EStateM RunFault Session Unit := do
  let session ← get
  if session.phase ≠ phase then throw (.outOfOrder phase session.phase)

/-- A step as it is taken: it looks at the phase, reads and writes, and sets one field after the
other. -/
def perform (job : Job) (target : Target) (step : Step) : EStateM RunFault Session Unit := do
  expect step.expected
  let archive ← job.input
  match step with
  | .select =>
    let selected ← job.selection archive
    modify ({ · with selected })
    modify ({ · with phase := .matched })
  | .scan =>
    let analysis ← job.analysis archive
    modify ({ · with analysis })
    modify ({ · with phase := .scanned })
  | .sink =>
    target.opened
    let session ← get
    let output ← outputEntries job.options session.analysis session.selected archive
    target.written output
    modify ({ · with output := some output })
    modify ({ · with selected := ∅ })
    modify ({ · with phase := .sunk })

/-- Takes a step. If it fails, the session is left as the step leaves it. -/
def attempt (job : Job) (target : Target) (step : Step) : StateM Session (Except RunFault Unit) :=
  fun session =>
    match perform job target step session with
    | .ok () session => (.ok (), session)
    | .error fault session => (.error fault, session)

def take (job : Job) (step : Step) : StateM Session (Except RunFault Unit) :=
  attempt job .memory step

end Session

def Job.run (job : Job) : Except RunFault Session := do
  let session ← Session.start.next job .select
  let session ← session.next job .scan
  session.next job .sink

end StaticCompanion
