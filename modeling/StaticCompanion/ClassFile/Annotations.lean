import StaticCompanion.ClassFile.Attribute

/-!
# Annotations

An annotation is a type and named values, which may hold annotations and lists of values in turn.
Reading follows the nesting under a budget: the run of bytes that is read is its own budget,
because each level of nesting takes at least one byte of it.
-/
namespace StaticCompanion

inductive ConstKind where
  | byte | char | double | float | int | long | short | boolean | string
  deriving DecidableEq, Repr

namespace ConstKind

def tag : ConstKind → UInt8
  | byte => 0x42
  | char => 0x43
  | double => 0x44
  | float => 0x46
  | int => 0x49
  | long => 0x4A
  | short => 0x53
  | boolean => 0x5A
  | string => 0x73

def ofTag? : UInt8 → Option ConstKind
  | 0x42 => some byte
  | 0x43 => some char
  | 0x44 => some double
  | 0x46 => some float
  | 0x49 => some int
  | 0x4A => some long
  | 0x53 => some short
  | 0x5A => some boolean
  | 0x73 => some string
  | _ => none

end ConstKind

/-- The value of an annotation element. Every number is an index into the pool. -/
inductive ElementValue where
  | const (kind : ConstKind) (index : UInt16)
  | enum (type const : UInt16)
  | class (index : UInt16)
  | nested (type : UInt16) (elements : List (UInt16 × ElementValue))
  | array (values : List ElementValue)
  deriving Repr

/-- An annotation: its type, and its elements by name. -/
structure AnnotationUse where
  type : UInt16
  elements : List (UInt16 × ElementValue)
  deriving Repr

namespace ElementValue

/-- Takes a value off the front, no more levels deep than the budget is long. -/
def readWithin : (budget : Bytes) → Reader ElementValue
  | [] => throw .endOfInput
  | _ :: budget => do
    match ← Reader.byte with
    | 0x65 =>
      let (type, name) ← (Format.u16.seq Format.u16).read
      return enum type name
    | 0x63 => return .class (← Format.u16.read)
    | 0x40 =>
      let type ← Format.u16.read
      let element : Reader (UInt16 × ElementValue) := do
        return (← Format.u16.read, ← readWithin budget)
      return nested type (← Reader.many element (← Reader.number 2))
    | 0x5B => return array (← Reader.many (readWithin budget) (← Reader.number 2))
    | tag =>
      match ConstKind.ofTag? tag with
      | some kind => return const kind (← Format.u16.read)
      | none => throw (.unknownElementTag tag)

mutual

def write : ElementValue → Except WriteFault Bytes
  | const kind index => .ok (kind.tag :: bigEndian 2 index.toNat)
  | enum type name => .ok (0x65 :: bigEndian 2 type.toNat ++ bigEndian 2 name.toNat)
  | «class» index => .ok (0x63 :: bigEndian 2 index.toNat)
  | nested type elements => do
    let count ← writeCount 2 elements.length
    return 0x40 :: bigEndian 2 type.toNat ++ count ++ (← writeElements elements)
  | array values => do
    let count ← writeCount 2 values.length
    return 0x5B :: count ++ (← writeValues values)

def writeValues : List ElementValue → Except WriteFault Bytes
  | [] => .ok []
  | value :: values => do return (← value.write) ++ (← writeValues values)

def writeElements : List (UInt16 × ElementValue) → Except WriteFault Bytes
  | [] => .ok []
  | (name, value) :: elements => do
    return bigEndian 2 name.toNat ++ (← value.write) ++ (← writeElements elements)

end

def format : Format ElementValue where
  read bytes := readWithin bytes bytes
  write := write

end ElementValue

namespace AnnotationUse

/-- Takes an annotation off the front, no more levels deep than the budget is long. -/
def readWithin (budget : Bytes) : Reader AnnotationUse := do
  let type ← Format.u16.read
  let element : Reader (UInt16 × ElementValue) := do
    return (← Format.u16.read, ← ElementValue.readWithin budget)
  return ⟨type, ← Reader.many element (← Reader.number 2)⟩

def write (use : AnnotationUse) : Except WriteFault Bytes := do
  let count ← writeCount 2 use.elements.length
  return bigEndian 2 use.type.toNat ++ count ++
    (← ElementValue.writeElements use.elements)

def format : Format AnnotationUse where
  read bytes := readWithin bytes bytes
  write := write

def listFormat : Format (List AnnotationUse) := Format.list 2 format

/-- The layout of the annotations of a method's parameters, one list for each. -/
def parametersFormat : Format (List (List AnnotationUse)) := Format.list 1 listFormat

def descriptorIn (use : AnnotationUse) (pool : ConstantPool) : Except ClassFault String :=
  (pool.text use.type).mapError fun fault => .malformed (.annotationType fault)

/-- The internal name between the `L` and the `;` of a descriptor. -/
def typeName? (descriptor : String) : Option String :=
  match descriptor.toList with
  | 'L' :: text =>
    match text.reverse with
    | ';' :: name => some (String.ofList name.reverse)
    | _ => none
  | _ => none

/-- Whether the annotations of a payload include one whose type is listed. Annotations behind the
first listed one are not looked at. -/
def anyListed (pool : ConstantPool) (names : NameSet) :
    List AnnotationUse → Except ClassFault Bool
  | [] => .ok false
  | use :: rest => do
    if (typeName? (← use.descriptorIn pool)).any names.contains then return true
    else anyListed pool names rest

end AnnotationUse

/-- Whether attributes carry an annotation whose type is listed. Visible annotations are looked at
before invisible ones. -/
def isAnnotated (pool : ConstantPool) (names : NameSet) (attributes : List Attribute) :
    Except ClassFault Bool := do
  if ← carries .visibleAnnotations then return true
  carries .invisibleAnnotations
where
  carries (name : AttributeName) : Except ClassFault Bool := do
    match ← Attribute.find? pool name.text attributes with
    | some attr =>
      AnnotationUse.anyListed pool names (← AnnotationUse.listFormat.decode attr.info)
    | none => return false

end StaticCompanion
