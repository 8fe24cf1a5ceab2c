import StaticCompanion.ClassFile.Instruction
import StaticCompanion.Relocation.Analysis
import StaticCompanion.Relocation.Lambda
import StaticCompanion.Relocation.StaticForm

/-!
# Companion classes

The companion of a class declares the members that move out of it: the fields, and the methods in
their static form, with their code as it is. It starts from the class's pool, so every index in
that code keeps its meaning. Its constructor is private, because it has no objects.
-/
namespace StaticCompanion

namespace Companion

def rootClass : String := "java/lang/Object"

def rootConstructor : MemberKey := ⟨rootClass, "<init>", "()V"⟩

/-- Loads the receiver, calls the superclass's constructor and returns. -/
def constructorBytes (superConstructor : UInt16) : Bytes :=
  0x2A :: CallKind.special.opcode :: bigEndian 2 superConstructor.toNat ++ [0xB1]

def constructor : Relocation Member := do
  let superConstructor ← ConstantPool.putMember .method rootConstructor
  let code : Code :=
    { maxStack := 1, maxLocals := 1, bytes := constructorBytes superConstructor, handlers := [],
      attributes := [] }
  let codeName ← ConstantPool.putText AttributeName.code.text
  let name ← ConstantPool.putText rootConstructor.name
  let descriptor ← ConstantPool.putText rootConstructor.descriptor
  let attr ← (Attribute.encode ⟨codeName, []⟩ Code.format code : Except WriteFault Attribute)
  return { flags := ⟨AccessFlags.isPrivate⟩, name, descriptor, attributes := [attr] }

/-- The attributes of a field that its copy keeps: its value and its generic type. -/
def keepsFieldAttribute (pool : ConstantPool) (attr : Attribute) : Bool :=
  match attr.sort pool with
  | .ok (some .constantValue) | .ok (some .signature) => true
  | _ => false

def copyField (field : Member) (key : MemberKey) : Relocation Member := do
  let attributes := field.attributes.filter (keepsFieldAttribute (← get))
  let name ← ConstantPool.putText key.name
  let descriptor ← ConstantPool.putText key.descriptor
  return { flags := field.flags.toPublic, name, descriptor, attributes }

/-- Checks that the companion can link a call site: other call sites than lambdas are linked by
methods of their own, and a lambda has to be a plain one. -/
def checkCallSite (pool : ConstantPool) (table : List Bootstrap) (owner : String)
    (site : UInt16) : Except RelocationFault Unit := do
  match ← lambdaBootstrap pool table site with
  | none => return
  | some (factory, bootstrap) =>
    if factory = metafactory then
      match bootstrap.arguments with
      | [_, body, _] =>
        match ← pool.entry body with
        | .methodHandle .. => return
        | _ => throw (.unsupportedLambda owner (.invalidArguments 3))
      | arguments => throw (.unsupportedLambda owner (.invalidArguments arguments.length))
    else if factory = alternativeMetafactory then
      throw (.unsupportedLambda owner .alternativeFactory)

/-- Whether code has call sites, all of which the companion can link. -/
def checkCode (pool : ConstantPool) (table : List Bootstrap) (owner : String) (code : Bytes) :
    Except RelocationFault Bool := do
  let sites := (← Instruction.decode code).filterMap fun instruction =>
    match instruction.action with
    | .dynamicCall index => some index
    | _ => none
  sites.forM (checkCallSite pool table owner)
  return !sites.isEmpty

/-- The copy of a method, and whether it has call sites. -/
def copyMethod (table : List Bootstrap) (owner : String) (method : Member) :
    Relocation (Member × Bool) := do
  let copy ← method.toStatic owner
  match ← copy.codeIn (← get) with
  | none => return (copy, false)
  | some code => return (copy, ← checkCode (← get) table owner code.bytes)

def isBootstrapTable (pool : ConstantPool) (attr : Attribute) : Bool :=
  match attr.sort pool with
  | .ok (some .bootstrapMethods) => true
  | _ => false

/-- The companion of a class named `owner`, with the given fields under their new keys and the
given methods. -/
def build (base : ClassFile) (owner : String) (fields : List (Member × MemberKey))
    (methods : List Member) : Relocation ClassFile := do
  let thisClass ← ConstantPool.putClass (companionName owner)
  let superClass ← ConstantPool.putClass rootClass
  let fields ← fields.mapM fun (field, key) => copyField field key
  let first ← constructor
  let table ← base.bootstraps
  let copies ← methods.mapM (copyMethod table owner)
  let pool ← get
  return {
    minorVersion := base.minorVersion
    majorVersion := base.majorVersion
    pool
    flags := ⟨AccessFlags.isSynthetic ||| AccessFlags.isPublic ||| AccessFlags.isSuper |||
      AccessFlags.isFinal⟩
    thisClass
    superClass
    interfaces := []
    fields
    methods := first :: copies.map Prod.fst
    attributes :=
      if copies.any Prod.snd then (base.attributes.find? (isBootstrapTable pool)).toList else [] }

def movingField? (analysis : Analysis) (pool : ConstantPool) (owner : String) (field : Member) :
    Except ClassFault (Option (Member × MemberKey)) := do
  return analysis.fields[← field.keyIn owner pool]?.map (field, ·)

def movingMethod? (analysis : Analysis) (pool : ConstantPool) (owner : String) (method : Member) :
    Except ClassFault (Option Member) := do
  return if analysis.methods.contains (← method.keyIn owner pool) then some method else none

end Companion

/-- The companion of a class; a class that keeps all its members has none. -/
def ClassFile.companion (base : ClassFile) (analysis : Analysis) :
    Except RelocationFault (Option ClassFile) := do
  let owner ← base.name
  let fields ← (base.fields.filterMapM (Companion.movingField? analysis base.pool owner) :
    Except ClassFault _)
  let methods ← (base.methods.filterMapM (Companion.movingMethod? analysis base.pool owner) :
    Except ClassFault _)
  if fields.isEmpty && methods.isEmpty then return none
  let (companion, _) ← (Companion.build base owner fields methods).runOn base.pool
  return some companion

end StaticCompanion
