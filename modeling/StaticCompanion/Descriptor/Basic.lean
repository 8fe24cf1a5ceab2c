namespace StaticCompanion

inductive Primitive where
  | boolean | char | float | double | byte | short | int | long
  deriving DecidableEq, Repr

namespace Primitive

def letter : Primitive → Char
  | boolean => 'Z'
  | char => 'C'
  | float => 'F'
  | double => 'D'
  | byte => 'B'
  | short => 'S'
  | int => 'I'
  | long => 'J'

def ofLetter? : Char → Option Primitive
  | 'Z' => some boolean
  | 'C' => some char
  | 'F' => some float
  | 'D' => some double
  | 'B' => some byte
  | 'S' => some short
  | 'I' => some int
  | 'J' => some long
  | _ => none

theorem ofLetter?_eq_some_iff {c : Char} {p : Primitive} :
    ofLetter? c = some p ↔ c = p.letter := by
  constructor
  · intro h
    unfold ofLetter? at h
    split at h <;> simp_all [letter] <;> subst h <;> rfl
  · rintro rfl
    cases p <;> rfl

end Primitive

inductive FieldType where
  | primitive (type : Primitive)
  /-- A class or interface by its internal name, such as `java/lang/String`. -/
  | object (name : String)
  | array (element : FieldType)
  deriving DecidableEq, Repr

inductive ReturnType where
  | void
  | value (type : FieldType)
  deriving DecidableEq, Repr

structure MethodDescriptor where
  parameters : List FieldType
  result : ReturnType
  deriving DecidableEq, Repr

/-- A text that is no descriptor or signature where one is needed. -/
structure InvalidDescriptor where
  text : String
  deriving DecidableEq, Repr

def InvalidDescriptor.message (fault : InvalidDescriptor) : String :=
  s!"Invalid descriptor: {fault.text}"

/-- A change of class names; names without an image are kept. -/
abbrev Renaming := String → Option String

def Renaming.apply (names : Renaming) (name : String) : String :=
  (names name).getD name

namespace FieldType

def chars : FieldType → List Char
  | primitive type => [type.letter]
  | object name => 'L' :: name.toList ++ [';']
  | array element => '[' :: element.chars

def descriptor (type : FieldType) : String := String.ofList type.chars

def rename (names : Renaming) : FieldType → FieldType
  | primitive type => primitive type
  | object name => object (names.apply name)
  | array element => array (element.rename names)

end FieldType

namespace ReturnType

def chars : ReturnType → List Char
  | void => ['V']
  | value type => type.chars

def descriptor (type : ReturnType) : String := String.ofList type.chars

def rename (names : Renaming) : ReturnType → ReturnType
  | void => void
  | value type => value (type.rename names)

end ReturnType

namespace MethodDescriptor

def chars (method : MethodDescriptor) : List Char :=
  '(' :: method.parameters.flatMap FieldType.chars ++ ')' :: method.result.chars

def descriptor (method : MethodDescriptor) : String := String.ofList method.chars

def rename (names : Renaming) (method : MethodDescriptor) : MethodDescriptor where
  parameters := method.parameters.map (FieldType.rename names)
  result := method.result.rename names

end MethodDescriptor

end StaticCompanion
