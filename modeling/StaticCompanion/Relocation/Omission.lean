import StaticCompanion.ClassFile.Basic
import StaticCompanion.ClassFile.TypeAnnotations
import StaticCompanion.Relocation.Fault

/-!
# Leaving out annotations

Annotations of omitted types are removed wherever they may stand: on classes, fields, methods and
parameters, and on uses of types, in code as well. An attribute from which nothing is removed
keeps its bytes; one that is left without annotations goes. The names of parameters always go.
-/
namespace StaticCompanion.Omission

inductive Place where
  | «class» | field | method | code
  deriving DecidableEq, Repr

def omits (omitted : NameSet) (pool : ConstantPool) (use : AnnotationUse) :
    Except ClassFault Bool := do
  return omitted.contains (← use.descriptorIn pool)

def keep {α : Type} (omitted : NameSet) (pool : ConstantPool) (use : α → AnnotationUse)
    (items : List α) : Except ClassFault (List α) :=
  items.filterM fun item => do return !(← omits omitted pool (use item))

/-- A list of annotations without those that are omitted. -/
def filterList {α : Type} (omitted : NameSet) (pool : ConstantPool) (format : Format (List α))
    (use : α → AnnotationUse) (attr : Attribute) :
    Except RelocationFault (Option Attribute) := do
  let items ← format.decode attr.info
  let kept ← keep omitted pool use items
  if kept.isEmpty then return none
  if kept.length = items.length then return some attr
  return some (← attr.encode format kept)

/-- The annotations of parameters without those that are omitted. The number of parameters stays;
lists that were empty before are no reason for the attribute to go. -/
def filterParameters (omitted : NameSet) (pool : ConstantPool) (attr : Attribute) :
    Except RelocationFault (Option Attribute) := do
  let lists ← AnnotationUse.parametersFormat.decode attr.info
  let kept ← (lists.mapM (keep omitted pool id) : Except ClassFault _)
  if kept.map List.length = lists.map List.length then return some attr
  if kept.all List.isEmpty then return none
  return some (← attr.encode AnnotationUse.parametersFormat kept)

def filterPlain (omitted : NameSet) (pool : ConstantPool) (place : Place) (attr : Attribute) :
    Except RelocationFault (Option Attribute) := do
  match ← attr.sort pool with
  | some .visibleAnnotations | some .invisibleAnnotations =>
    if place = .code then return some attr
    filterList omitted pool AnnotationUse.listFormat id attr
  | some .visibleTypeAnnotations | some .invisibleTypeAnnotations =>
    filterList omitted pool TypeAnnotationUse.listFormat TypeAnnotationUse.content attr
  | some .visibleParameterAnnotations | some .invisibleParameterAnnotations =>
    if place ≠ .method then return some attr
    filterParameters omitted pool attr
  | some .methodParameters => return if place = .method then none else some attr
  | _ => return some attr

def filterCode (omitted : NameSet) (pool : ConstantPool) (attr : Attribute) :
    Except RelocationFault Attribute := do
  let code ← Code.format.decode attr.info
  let kept ← (code.attributes.filterMapM (filterPlain omitted pool .code) :
    Except RelocationFault _)
  if kept = code.attributes then return attr
  attr.encode Code.format { code with attributes := kept }

def filterAttribute (omitted : NameSet) (pool : ConstantPool) (place : Place)
    (attr : Attribute) : Except RelocationFault (Option Attribute) := do
  if place = .method ∧ (← attr.sort pool) = some .code then
    return some (← filterCode omitted pool attr)
  filterPlain omitted pool place attr

def filterAttributes (omitted : NameSet) (pool : ConstantPool) (place : Place)
    (attributes : List Attribute) : Except RelocationFault (List Attribute) :=
  attributes.filterMapM (filterAttribute omitted pool place)

def filterMember (omitted : NameSet) (pool : ConstantPool) (place : Place) (member : Member) :
    Except RelocationFault Member := do
  return { member with attributes := ← filterAttributes omitted pool place member.attributes }

end Omission

/-- A class without the annotations that are omitted, given by their descriptors. -/
def ClassFile.omitAnnotations (file : ClassFile) (omitted : NameSet) :
    Except RelocationFault ClassFile := do
  let attributes ← Omission.filterAttributes omitted file.pool .class file.attributes
  let fields ← file.fields.mapM (Omission.filterMember omitted file.pool .field)
  let methods ← file.methods.mapM (Omission.filterMember omitted file.pool .method)
  return { file with fields, methods, attributes }

end StaticCompanion
