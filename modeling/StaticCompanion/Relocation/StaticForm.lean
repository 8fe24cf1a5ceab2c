import StaticCompanion.ClassFile.Annotations
import StaticCompanion.ClassFile.Basic
import StaticCompanion.ConstantPool.Insert
import StaticCompanion.Relocation.Fault
import StaticCompanion.Relocation.Naming

/-!
# The static form of a method

A method that moves to another class becomes public and static. A method of an object takes the
object as its first parameter. The slots of its local variables stay as they are, so its code
stays too; what is said about its parameters moves up by one, or is dropped.
-/
namespace StaticCompanion

namespace Member

def initializerNames : List String := ["<init>", "<clinit>"]

/-- An attribute of a method once the method has one more parameter in front. The signature and
the names of parameters do not account for that parameter. -/
def shiftParameters (pool : ConstantPool) (attr : Attribute) :
    Except RelocationFault (Option Attribute) := do
  match ← attr.sort pool with
  | some .signature | some .methodParameters => return none
  | some .visibleParameterAnnotations | some .invisibleParameterAnnotations =>
    let lists ← AnnotationUse.parametersFormat.decode attr.info
    return some (← attr.encode AnnotationUse.parametersFormat ([] :: lists))
  | _ => return some attr

def shiftAllParameters (pool : ConstantPool) (attributes : List Attribute) :
    Except RelocationFault (List Attribute) :=
  attributes.filterMapM (shiftParameters pool)

/-- The method as the companion of `owner` declares it. The new descriptor goes into the pool. -/
def toStatic (owner : String) (method : Member) : Relocation Member := do
  let key ← method.keyIn owner (← get)
  if method.flags.hasAny (AccessFlags.isAbstract ||| AccessFlags.isNative) then
    throw (.noBody key)
  if initializerNames.contains key.name then
    throw (.initializer key)
  if method.isStatic then
    return { method with flags := method.flags.toPublic }
  let descriptor ← ConstantPool.putText (← withReceiver owner key.descriptor)
  let attributes ← shiftAllParameters (← get) method.attributes
  return { flags := method.flags.toPublic.set AccessFlags.isStatic, name := method.name,
           descriptor, attributes }

end Member

end StaticCompanion
