import StaticCompanion.ClassFile.Fault
import StaticCompanion.ConstantPool.Lookup

namespace StaticCompanion

/-- A named payload. -/
structure Attribute where
  name : UInt16
  info : Bytes
  deriving DecidableEq, Repr

namespace Attribute

def format : Format Attribute :=
  (Format.u16.seq (Format.blob 4)).map (fun (name, info) => ⟨name, info⟩)
    fun attr => (attr.name, attr.info)

def listFormat : Format (List Attribute) := Format.list 2 format

def nameIn (attr : Attribute) (pool : ConstantPool) : Except ClassFault String :=
  (pool.text attr.name).mapError fun fault => .malformed (.pool fault)

def encode {α : Type} (attr : Attribute) (format : Format α) (value : α) :
    Except WriteFault Attribute := do
  return { attr with info := ← format.write value }

/-- The first attribute with a name. The names in front of it have to be readable. -/
def find? (pool : ConstantPool) (name : String) :
    List Attribute → Except ClassFault (Option Attribute)
  | [] => .ok none
  | attr :: rest => do
    if (← attr.nameIn pool) = name then return some attr
    else find? pool name rest

end Attribute

/-- The names of the attributes that are looked into. -/
inductive AttributeName where
  | code
  | constantValue
  | signature
  | bootstrapMethods
  | methodParameters
  | localVariableTable
  | localVariableTypeTable
  | visibleAnnotations
  | invisibleAnnotations
  | visibleParameterAnnotations
  | invisibleParameterAnnotations
  | visibleTypeAnnotations
  | invisibleTypeAnnotations
  deriving DecidableEq, Repr

namespace AttributeName

def text : AttributeName → String
  | code => "Code"
  | constantValue => "ConstantValue"
  | signature => "Signature"
  | bootstrapMethods => "BootstrapMethods"
  | methodParameters => "MethodParameters"
  | localVariableTable => "LocalVariableTable"
  | localVariableTypeTable => "LocalVariableTypeTable"
  | visibleAnnotations => "RuntimeVisibleAnnotations"
  | invisibleAnnotations => "RuntimeInvisibleAnnotations"
  | visibleParameterAnnotations => "RuntimeVisibleParameterAnnotations"
  | invisibleParameterAnnotations => "RuntimeInvisibleParameterAnnotations"
  | visibleTypeAnnotations => "RuntimeVisibleTypeAnnotations"
  | invisibleTypeAnnotations => "RuntimeInvisibleTypeAnnotations"

def all : List AttributeName :=
  [code, constantValue, signature, bootstrapMethods, methodParameters, localVariableTable,
    localVariableTypeTable, visibleAnnotations, invisibleAnnotations,
    visibleParameterAnnotations, invisibleParameterAnnotations, visibleTypeAnnotations,
    invisibleTypeAnnotations]

/-- The name that a text spells; other attributes are not looked into. -/
def ofText? (text : String) : Option AttributeName :=
  all.find? fun name => name.text == text

theorem ofText?_eq_some_iff {text : String} {name : AttributeName} :
    ofText? text = some name ↔ text = name.text := by
  constructor
  · intro found
    unfold ofText? at found
    have same := List.find?_some found
    exact (beq_iff_eq.mp same).symm
  · rintro rfl
    cases name <;> decide

end AttributeName

/-- What an attribute is, when it is one that is looked into. -/
def Attribute.sort (attr : Attribute) (pool : ConstantPool) :
    Except ClassFault (Option AttributeName) := do
  return AttributeName.ofText? (← attr.nameIn pool)

end StaticCompanion
