import StaticCompanion.AccessFlags
import StaticCompanion.ClassFile.Code
import StaticCompanion.ConstantPool.Format

namespace StaticCompanion

structure Member where
  flags : AccessFlags
  name : UInt16
  descriptor : UInt16
  attributes : List Attribute
  deriving DecidableEq, Repr

structure ClassFile where
  minorVersion : UInt16
  majorVersion : UInt16
  pool : ConstantPool
  flags : AccessFlags
  thisClass : UInt16
  superClass : UInt16
  interfaces : List UInt16
  fields : List Member
  methods : List Member
  attributes : List Attribute
  deriving DecidableEq, Repr

def AccessFlags.format : Format AccessFlags :=
  Format.u16.map AccessFlags.mk AccessFlags.bits

namespace Member

open Format in
def format : Format Member :=
  (AccessFlags.format.seq (u16.seq (u16.seq Attribute.listFormat))).map
    (fun (flags, name, descriptor, attributes) => ⟨flags, name, descriptor, attributes⟩)
    fun member => (member.flags, member.name, member.descriptor, member.attributes)

def nameIn (member : Member) (pool : ConstantPool) : Except ClassFault String :=
  (pool.text member.name).mapError fun fault => .malformed (.pool fault)

def descriptorIn (member : Member) (pool : ConstantPool) : Except ClassFault String :=
  (pool.text member.descriptor).mapError fun fault => .malformed (.pool fault)

/-- The key of a member of the class named `owner`. -/
def keyIn (member : Member) (owner : String) (pool : ConstantPool) :
    Except ClassFault MemberKey := do
  let name ← member.nameIn pool
  let descriptor ← member.descriptorIn pool
  return ⟨owner, name, descriptor⟩

def isStatic (member : Member) : Bool := member.flags.has AccessFlags.isStatic

def isPublic (member : Member) : Bool := member.flags.has AccessFlags.isPublic

def codeIn (member : Member) (pool : ConstantPool) : Except ClassFault (Option Code) := do
  match ← Attribute.find? pool AttributeName.code.text member.attributes with
  | some attr => return some (← Code.format.decode attr.info)
  | none => return none

end Member

namespace ClassFile

/-- The bytes in front of every class file. -/
def magic : Bytes := [0xCA, 0xFE, 0xBA, 0xBE]

def readMagic : Reader Unit := do
  if (← Reader.take 4) = magic then return () else throw .badMagic

def magicFormat : Format Unit where
  read := readMagic
  write _ := .ok magic

open Format in
def format : Format ClassFile :=
  (magicFormat.seq (u16.seq (u16.seq (ConstantPool.format.seq
    (AccessFlags.format.seq (u16.seq (u16.seq ((list 2 u16).seq
      ((list 2 Member.format).seq ((list 2 Member.format).seq Attribute.listFormat)))))))))).map
    (fun (_, minor, major, pool, flags, thisClass, superClass, interfaces, fields, methods,
        attributes) =>
      ⟨minor, major, pool, flags, thisClass, superClass, interfaces, fields, methods, attributes⟩)
    fun file => ((), file.minorVersion, file.majorVersion, file.pool, file.flags, file.thisClass,
      file.superClass, file.interfaces, file.fields, file.methods, file.attributes)

/-- The class file that a run of bytes spells. -/
def ofBytes (bytes : Bytes) : Except ClassFault ClassFile :=
  format.readAll (fun _ => .trailingClassBytes) bytes

def toBytes (file : ClassFile) : Except WriteFault Bytes :=
  format.write file

def name (file : ClassFile) : Except ClassFault String :=
  (file.pool.className file.thisClass).mapError fun fault => .malformed (.thisClass fault)

/-- The table of bootstrap methods; a class without call sites has none. -/
def bootstraps (file : ClassFile) : Except ClassFault (List Bootstrap) := do
  match ← Attribute.find? file.pool AttributeName.bootstrapMethods.text file.attributes with
  | some attr => Bootstrap.tableFormat.decode attr.info
  | none => return []

end ClassFile

end StaticCompanion
