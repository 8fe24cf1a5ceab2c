import StaticCompanion.ClassFile.Basic
import StaticCompanion.ConstantPool.Insert
import StaticCompanion.Descriptor.Parser
import StaticCompanion.Relocation.Analysis
import StaticCompanion.Relocation.Fault
import StaticCompanion.Signature.Parser

/-!
# Replacing types

Replaced types are renamed wherever a class names them: in class constants, in the descriptors of
the pool and of members, in signatures, and in the tables of local variables. A text is never
changed in place, since something unrelated may share it; what used it is pointed at another text.
-/
namespace StaticCompanion.TypeSubstitution

/-- A change of a text that fails if the text is not of the right form. -/
abbrev TextChange := String → Except InvalidDescriptor String

def descriptor (names : Renaming) : TextChange := fun text => do
  match text.toList.head? with
  | some '(' => return ((← MethodDescriptor.ofDescriptor text).rename names).descriptor
  | _ => return ((← FieldType.ofDescriptor text).rename names).descriptor

/-- Renames a class constant; a class of arrays is named by a descriptor. -/
def className (names : Renaming) : TextChange := fun text =>
  match text.toList.head? with
  | some '[' => descriptor names text
  | _ => .ok (names.apply text)

def signature (names : Renaming) : TextChange := Signature.renameText names

/-- The index of a changed text. A text that stays the same keeps its index. -/
def changeText (change : TextChange) (index : UInt16) : Relocation UInt16 := do
  let text ← (← get).text index
  let changed ← change text
  if changed = text then return index
  ConstantPool.putText changed

def changeEntry (names : Renaming) (index : UInt16) (entry : Entry) : Relocation Unit := do
  match entry with
  | .class name =>
    let changed ← changeText (className names) name
    if changed ≠ name then ConstantPool.replace index (.class changed)
  | .nameAndType name type =>
    let changed ← changeText (descriptor names) type
    if changed ≠ type then ConstantPool.replace index (.nameAndType name changed)
  | .methodType type =>
    let changed ← changeText (descriptor names) type
    if changed ≠ type then ConstantPool.replace index (.methodType changed)
  | _ => return

def changeSignature (names : Renaming) (attr : Attribute) : Relocation Attribute := do
  if (← attr.sort (← get)) ≠ some .signature then return attr
  let index ← Format.u16.decode attr.info
  let changed ← changeText (signature names) index
  if changed = index then return attr
  (attr.encode Format.u16 changed : Except WriteFault Attribute)

def changeTable (change : TextChange) (attr : Attribute) : Relocation Attribute := do
  let table ← LocalVariable.tableFormat.decode attr.info
  let changed ← table.mapM fun var => do
    return { var with type := ← changeText change var.type }
  if changed = table then return attr
  (attr.encode LocalVariable.tableFormat changed : Except WriteFault Attribute)

def changeCodeAttribute (names : Renaming) (attr : Attribute) : Relocation Attribute := do
  match ← attr.sort (← get) with
  | some .localVariableTable => changeTable (descriptor names) attr
  | some .localVariableTypeTable => changeTable (signature names) attr
  | _ => return attr

def changeCode (names : Renaming) (attr : Attribute) : Relocation Attribute := do
  if (← attr.sort (← get)) ≠ some .code then return attr
  let code ← Code.format.decode attr.info
  let attributes ← code.attributes.mapM (changeCodeAttribute names)
  if attributes = code.attributes then return attr
  (attr.encode Code.format { code with attributes } : Except WriteFault Attribute)

def changeField (names : Renaming) (field : Member) : Relocation Member := do
  let type ← changeText (descriptor names) field.descriptor
  let attributes ← field.attributes.mapM (changeSignature names)
  return { field with descriptor := type, attributes }

def changeMethod (names : Renaming) (method : Member) : Relocation Member := do
  let method ← changeField names method
  return { method with attributes := ← method.attributes.mapM (changeCode names) }

/-- Replaces the types of a class: first in its pool, then in its own parts. -/
def changeClass (names : Renaming) (file : ClassFile) : Relocation ClassFile := do
  file.pool.entries.forM fun (index, entry) => changeEntry names index entry
  let attributes ← file.attributes.mapM (changeSignature names)
  let fields ← file.fields.mapM (changeField names)
  let methods ← file.methods.mapM (changeMethod names)
  return { file with fields, methods, attributes, pool := ← get }

end TypeSubstitution

def ClassFile.replaceTypes (file : ClassFile) (analysis : Analysis) :
    Except RelocationFault ClassFile := do
  if analysis.types.isEmpty then return file
  return (← (TypeSubstitution.changeClass analysis.replacementType file).runOn file.pool).1

end StaticCompanion
