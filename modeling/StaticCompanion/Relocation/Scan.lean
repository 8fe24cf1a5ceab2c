import StaticCompanion.ClassFile.Annotations
import StaticCompanion.ClassFile.Instruction
import StaticCompanion.Relocation.Analysis
import StaticCompanion.Relocation.Lambda
import StaticCompanion.Relocation.Naming

/-!
# Scanning a class for members that move

Members with a supported annotation move. A moved body may use what only its own class can see, so
every non-public method that a moved body calls, or makes a lambda of, moves as well, and so does
every non-public static field it uses. The methods to look at are kept in a worklist; a method
enters it once.

A scan that fails keeps what it has found so far.
-/
namespace StaticCompanion

/-- A step of a scan, which extends an analysis. -/
abbrev ScanM (α : Type) := EStateM RelocationFault Analysis α

namespace Scan

def addField (key : MemberKey) : ScanM Unit :=
  modify fun analysis =>
    { analysis with fields := analysis.fields.insertIfNew key key.movedField }

/-- Looks at one field: records it if it is supported, and adds it to the hidden fields if it is
static and not public. -/
def visitField (supported : NameSet) (pool : ConstantPool) (owner : String)
    (hidden : Std.ExtTreeSet MemberKey) (field : Member) : ScanM (Std.ExtTreeSet MemberKey) := do
  let key ← field.keyIn owner pool
  if ← isAnnotated pool supported field.attributes then
    if !field.flags.has (AccessFlags.isStatic ||| AccessFlags.isFinal) then
      throw (.inconstantField key)
    addField key
  return if field.isStatic && !field.isPublic then hidden.insert key else hidden

/-- The methods to look at and those that may follow. -/
structure Worklist where
  queue : List (MemberKey × Member)
  /-- The methods that were ever in the queue. -/
  staged : Std.ExtTreeSet MemberKey
  /-- The methods that move if a moved body needs them. -/
  hidden : Std.ExtTreeMap MemberKey Member

namespace Worklist

def empty : Worklist := ⟨[], ∅, ∅⟩

/-- Queues a method, unless it was queued before. -/
def stage (work : Worklist) (key : MemberKey) (method : Member) : Worklist :=
  if work.staged.contains key then work
  else { work with queue := work.queue ++ [(key, method)], staged := work.staged.insert key }

/-- Queues a method that a moved body needs, if it is hidden and has not moved yet. -/
def need (work : Worklist) (moved : MemberMap) (key : MemberKey) : Worklist :=
  if moved.contains key then work
  else
    match work.hidden[key]? with
    | some method => work.stage key method
    | none => work

end Worklist

/-- Looks at the header of one method: queues it if it is supported, and adds it to the hidden
methods if it is neither public nor a constructor. -/
def visitMethod (supported : NameSet) (pool : ConstantPool) (owner : String) (work : Worklist)
    (method : Member) : Except RelocationFault Worklist := do
  let key ← method.keyIn owner pool
  let isSupported ← isAnnotated pool supported method.attributes
  let work := if isSupported && !key.isCovariantBufferMethod then work.stage key method else work
  return if key.name ≠ "<init>" ∧ !method.isPublic then
    { work with hidden := work.hidden.insert key method } else work

def surveyMethods (supported : NameSet) (pool : ConstantPool) (owner : String)
    (methods : List Member) : Except RelocationFault Worklist :=
  methods.foldlM (visitMethod supported pool owner) .empty

/-- What the worklist is worked off against. -/
structure Context where
  pool : ConstantPool
  bootstraps : List Bootstrap
  hiddenFields : Std.ExtTreeSet MemberKey

def visitInstruction (context : Context) (work : Worklist) (instruction : Instruction) :
    ScanM Worklist := do
  match instruction.action with
  | .field _ index =>
    let key ← context.pool.member index
    if context.hiddenFields.contains key then addField key
    return work
  | .call _ index =>
    let key ← context.pool.member index
    return work.need (← get).methods key
  | .dynamicCall index =>
    match ← lambdaBootstrap context.pool context.bootstraps index with
    | none => return work
    | some (_, bootstrap) =>
      match ← lambdaBody context.pool bootstrap with
      | none => return work
      | some key => return work.need (← get).methods key
  | .other => return work

def visitBody (context : Context) (work : Worklist) (method : Member) : ScanM Worklist := do
  match ← method.codeIn context.pool with
  | none => return work
  | some code => (← Instruction.decode code.bytes).foldlM (visitInstruction context) work

/-- Works off the queue, at most `budget` methods of it. Methods that have moved are passed over. -/
def drain (context : Context) : (budget : Nat) → Worklist → ScanM Unit
  | 0, _ => return
  | budget + 1, work =>
    match work.queue with
    | [] => return
    | (key, method) :: queue => do
      let work := { work with queue }
      if (← get).methods.contains key then drain context budget work
      else
        let moved ← key.movedMethod method.isStatic
        modify fun analysis => { analysis with methods := analysis.methods.insert key moved }
        drain context budget (← visitBody context work method)

/-- Scans a class. Every method enters the queue at most once, as a supported or as a hidden one,
which bounds the methods to work off. -/
def scan (supported : NameSet) (file : ClassFile) : ScanM Unit := do
  let owner ← file.name
  let hiddenFields ← file.fields.foldlM (visitField supported file.pool owner) ∅
  let work ← surveyMethods supported file.pool owner file.methods
  if work.queue.isEmpty then return
  let bootstraps ← file.bootstraps
  drain ⟨file.pool, bootstraps, hiddenFields⟩ (work.queue.length + work.hidden.size) work

def extend (supported : NameSet) (analysis : Analysis) (file : ClassFile) :
    Except RelocationFault Analysis :=
  match scan supported file analysis with
  | .ok () analysis => .ok analysis
  | .error fault _ => .error fault

end Scan

end StaticCompanion
