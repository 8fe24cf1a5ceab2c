import StaticCompanion.Text.PoolText

namespace StaticCompanion

inductive EntryKind where
  | utf8 | integer | float | long | double | «class» | string
  | fieldRef | methodRef | interfaceMethodRef | nameAndType
  | methodHandle | methodType | dynamic | invokeDynamic | module | package
  deriving DecidableEq, Repr

namespace EntryKind

def tag : EntryKind → UInt8
  | utf8 => 1
  | integer => 3
  | float => 4
  | long => 5
  | double => 6
  | «class» => 7
  | string => 8
  | fieldRef => 9
  | methodRef => 10
  | interfaceMethodRef => 11
  | nameAndType => 12
  | methodHandle => 15
  | methodType => 16
  | dynamic => 17
  | invokeDynamic => 18
  | module => 19
  | package => 20

def name : EntryKind → String
  | utf8 => "CONSTANT_Utf8"
  | integer => "CONSTANT_Integer"
  | float => "CONSTANT_Float"
  | long => "CONSTANT_Long"
  | double => "CONSTANT_Double"
  | «class» => "CONSTANT_Class"
  | string => "CONSTANT_String"
  | fieldRef => "CONSTANT_Fieldref"
  | methodRef => "CONSTANT_Methodref"
  | interfaceMethodRef => "CONSTANT_InterfaceMethodref"
  | nameAndType => "CONSTANT_NameAndType"
  | methodHandle => "CONSTANT_MethodHandle"
  | methodType => "CONSTANT_MethodType"
  | dynamic => "CONSTANT_Dynamic"
  | invokeDynamic => "CONSTANT_InvokeDynamic"
  | module => "CONSTANT_Module"
  | package => "CONSTANT_Package"

end EntryKind

inductive RefKind where
  | field
  | method
  | interfaceMethod
  deriving DecidableEq, Repr

/-- A constant. Every `UInt16` but the handle kind is the index of another constant, or, in the
two dynamic kinds, first the position of a bootstrap method. -/
inductive Entry where
  | utf8 (text : PoolText)
  | integer (value : Int32)
  | float (bits : UInt32)
  | long (value : Int64)
  | double (bits : UInt64)
  | class (name : UInt16)
  | string (text : UInt16)
  | memberRef (kind : RefKind) (owner nameAndType : UInt16)
  | nameAndType (name descriptor : UInt16)
  | methodHandle (kind : UInt8) (reference : UInt16)
  | methodType (descriptor : UInt16)
  | dynamic (bootstrap nameAndType : UInt16)
  | invokeDynamic (bootstrap nameAndType : UInt16)
  | module (name : UInt16)
  | package (name : UInt16)
  deriving DecidableEq, Repr

def RefKind.entryKind : RefKind → EntryKind
  | field => .fieldRef
  | method => .methodRef
  | interfaceMethod => .interfaceMethodRef

/-- Two numbers of 32 bits are equal as floating-point numbers: neither is NaN, and they have the
same bits or both are zero. -/
def sameFloat (a b : UInt32) : Bool :=
  let magnitude (x : UInt32) := x &&& 0x7FFFFFFF
  magnitude a ≤ 0x7F800000 && magnitude b ≤ 0x7F800000 &&
    (a == b || (magnitude a == 0 && magnitude b == 0))

/-- Two numbers of 64 bits are equal as floating-point numbers: neither is NaN, and they have the
same bits or both are zero. -/
def sameDouble (a b : UInt64) : Bool :=
  let magnitude (x : UInt64) := x &&& 0x7FFFFFFFFFFFFFFF
  magnitude a ≤ 0x7FF0000000000000 && magnitude b ≤ 0x7FF0000000000000 &&
    (a == b || (magnitude a == 0 && magnitude b == 0))

namespace Entry

def kind : Entry → EntryKind
  | utf8 _ => .utf8
  | integer _ => .integer
  | float _ => .float
  | long _ => .long
  | double _ => .double
  | «class» _ => .class
  | string _ => .string
  | memberRef kind _ _ => kind.entryKind
  | nameAndType _ _ => .nameAndType
  | methodHandle _ _ => .methodHandle
  | methodType _ => .methodType
  | dynamic _ _ => .dynamic
  | invokeDynamic _ _ => .invokeDynamic
  | module _ => .module
  | package _ => .package

/-- The number of slots that a constant takes up in a pool. -/
def slots : Entry → Nat
  | long _ | double _ => 2
  | _ => 1

/-- Constants that a pool does not tell apart. -/
def same : Entry → Entry → Bool
  | float a, float b => sameFloat a b
  | double a, double b => sameDouble a b
  | a, b => a == b

end Entry

end StaticCompanion
