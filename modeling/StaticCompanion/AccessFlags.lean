namespace StaticCompanion

/-- A word of modifier bits. -/
structure AccessFlags where
  bits : UInt16
  deriving DecidableEq, Repr

/-- A modifier: its name in class files, and its bit. -/
structure Modifier where
  name : String
  bit : UInt16
  deriving DecidableEq, Repr

namespace AccessFlags

def isPublic : UInt16 := 0x0001
def isPrivate : UInt16 := 0x0002
def isProtected : UInt16 := 0x0004
def isStatic : UInt16 := 0x0008
def isFinal : UInt16 := 0x0010
def isSuper : UInt16 := 0x0020
def isNative : UInt16 := 0x0100
def isAbstract : UInt16 := 0x0400
def isSynthetic : UInt16 := 0x1000

def has (flags : AccessFlags) (mask : UInt16) : Bool := flags.bits &&& mask == mask

def hasAny (flags : AccessFlags) (mask : UInt16) : Bool := flags.bits &&& mask != 0

def set (flags : AccessFlags) (mask : UInt16) : AccessFlags := ⟨flags.bits ||| mask⟩

def clear (flags : AccessFlags) (mask : UInt16) : AccessFlags := ⟨flags.bits &&& ~~~mask⟩

/-- The flags of a member that anyone may use. -/
def toPublic (flags : AccessFlags) : AccessFlags :=
  (flags.clear (isPrivate ||| isProtected)).set isPublic

/-- The names of the modifiers of a list that are set. -/
def names (flags : AccessFlags) (modifiers : List Modifier) : List String :=
  (modifiers.filter fun modifier => flags.has modifier.bit).map Modifier.name

end AccessFlags

namespace Modifier

def ofClass : List Modifier :=
  [⟨"PUBLIC", 0x0001⟩, ⟨"FINAL", 0x0010⟩, ⟨"SUPER", 0x0020⟩, ⟨"INTERFACE", 0x0200⟩,
    ⟨"ABSTRACT", 0x0400⟩, ⟨"SYNTHETIC", 0x1000⟩, ⟨"ANNOTATION", 0x2000⟩, ⟨"ENUM", 0x4000⟩,
    ⟨"MODULE", 0x8000⟩]

def ofField : List Modifier :=
  [⟨"PUBLIC", 0x0001⟩, ⟨"PRIVATE", 0x0002⟩, ⟨"PROTECTED", 0x0004⟩, ⟨"STATIC", 0x0008⟩,
    ⟨"FINAL", 0x0010⟩, ⟨"VOLATILE", 0x0040⟩, ⟨"TRANSIENT", 0x0080⟩, ⟨"SYNTHETIC", 0x1000⟩,
    ⟨"ENUM", 0x4000⟩]

def ofMethod : List Modifier :=
  [⟨"PUBLIC", 0x0001⟩, ⟨"PRIVATE", 0x0002⟩, ⟨"PROTECTED", 0x0004⟩, ⟨"STATIC", 0x0008⟩,
    ⟨"FINAL", 0x0010⟩, ⟨"SYNCHRONIZED", 0x0020⟩, ⟨"BRIDGE", 0x0040⟩, ⟨"VARARGS", 0x0080⟩,
    ⟨"NATIVE", 0x0100⟩, ⟨"ABSTRACT", 0x0400⟩, ⟨"STRICT", 0x0800⟩, ⟨"SYNTHETIC", 0x1000⟩]

end Modifier

end StaticCompanion
