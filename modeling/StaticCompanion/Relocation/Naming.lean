import StaticCompanion.Descriptor.Parser
import StaticCompanion.MemberKey

namespace StaticCompanion

def companionMark : String := "Desugar"

/-- The internal name of a class's companion: the mark goes behind the last slash. -/
def companionName (name : String) : String :=
  let reversed := name.toList.reverse
  let simple := (reversed.takeWhile (· ≠ '/')).reverse
  let package := (reversed.dropWhile (· ≠ '/')).reverse
  String.ofList (package ++ companionMark.toList ++ simple)

/-- The descriptor of a method of `owner`'s objects once the object is its first parameter. -/
def withReceiver (owner descriptor : String) : Except InvalidDescriptor String := do
  let method ← MethodDescriptor.ofDescriptor descriptor
  return { method with parameters := .object owner :: method.parameters }.descriptor

namespace MemberKey

def movedField (field : MemberKey) : MemberKey where
  owner := companionName field.owner
  name := field.name
  descriptor := field.descriptor

def movedMethod (isStatic : Bool) (method : MemberKey) : Except InvalidDescriptor MemberKey := do
  let descriptor ←
    if isStatic then pure method.descriptor
    else withReceiver method.owner method.descriptor
  return ⟨companionName method.owner, method.name, descriptor⟩

/-- The buffers whose methods give back their own type rather than the common one. -/
def covariantBuffers : List String :=
  ["java/nio/ByteBuffer", "java/nio/CharBuffer", "java/nio/DoubleBuffer",
    "java/nio/FloatBuffer", "java/nio/IntBuffer", "java/nio/LongBuffer",
    "java/nio/MappedByteBuffer", "java/nio/ShortBuffer"]

def covariantMethods : List String :=
  ["position", "limit", "mark", "reset", "clear", "flip", "rewind"]

/-- Whether the method gives back its own kind of buffer. -/
def isCovariantBufferMethod (method : MemberKey) : Bool :=
  covariantBuffers.contains method.owner && covariantMethods.contains method.name

end MemberKey

end StaticCompanion
