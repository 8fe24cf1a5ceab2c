import StaticCompanion.ClassFile.Annotations

/-!
# Type annotations

An annotation on a use of a type: where the use stands, the way from there to the annotated part
of the type, and the annotation. The number in front of a target determines its operands, so a
target is its operands together with the choice among the numbers that share their layout.
-/
namespace StaticCompanion

inductive GenericSite where
  | «class» | method
  deriving DecidableEq, Repr

inductive SoleSite where
  | field | result | receiver
  deriving DecidableEq, Repr

inductive LocalSite where
  | variable | resource
  deriving DecidableEq, Repr

inductive TypeExpression where
  | instanceOf | new | constructorReference | methodReference
  deriving DecidableEq, Repr

inductive GenericExpression where
  | cast | constructorCall | methodCall | constructorReference | methodReference
  deriving DecidableEq, Repr

/-- A stretch of code in which a local variable lives. -/
structure LiveRange where
  start : UInt16
  length : UInt16
  index : UInt16
  deriving DecidableEq, Repr

/-- Where an annotated type stands. -/
inductive TypeTarget where
  | typeParameter (site : GenericSite) (index : UInt8)
  | superType (index : UInt16)
  | typeParameterBound (site : GenericSite) (parameter bound : UInt8)
  | sole (site : SoleSite)
  | formalParameter (index : UInt8)
  | throws (index : UInt16)
  | localVariable (site : LocalSite) (ranges : List LiveRange)
  | catch (index : UInt16)
  | offset (expression : TypeExpression) (pc : UInt16)
  | typeArgument (expression : GenericExpression) (pc : UInt16) (argument : UInt8)
  deriving DecidableEq, Repr

def LiveRange.format : Format LiveRange :=
  (Format.u16.seq (Format.u16.seq Format.u16)).map
    (fun (start, length, index) => ⟨start, length, index⟩)
    fun range => (range.start, range.length, range.index)

namespace TypeTarget

/-- The number in front of a target. -/
def number : TypeTarget → UInt8
  | typeParameter .class _ => 0x00
  | typeParameter .method _ => 0x01
  | superType _ => 0x10
  | typeParameterBound .class _ _ => 0x11
  | typeParameterBound .method _ _ => 0x12
  | sole .field => 0x13
  | sole .result => 0x14
  | sole .receiver => 0x15
  | formalParameter _ => 0x16
  | throws _ => 0x17
  | localVariable .variable _ => 0x40
  | localVariable .resource _ => 0x41
  | .catch _ => 0x42
  | offset .instanceOf _ => 0x43
  | offset .new _ => 0x44
  | offset .constructorReference _ => 0x45
  | offset .methodReference _ => 0x46
  | typeArgument .cast _ _ => 0x47
  | typeArgument .constructorCall _ _ => 0x48
  | typeArgument .methodCall _ _ => 0x49
  | typeArgument .constructorReference _ _ => 0x4A
  | typeArgument .methodReference _ _ => 0x4B

open Format in
def readOperands (number : UInt8) : Reader TypeTarget :=
  match number with
  | 0x00 => typeParameter .class <$> u8.read
  | 0x01 => typeParameter .method <$> u8.read
  | 0x10 => superType <$> u16.read
  | 0x11 => (fun (parameter, bound) => typeParameterBound .class parameter bound) <$>
      (u8.seq u8).read
  | 0x12 => (fun (parameter, bound) => typeParameterBound .method parameter bound) <$>
      (u8.seq u8).read
  | 0x13 => return sole .field
  | 0x14 => return sole .result
  | 0x15 => return sole .receiver
  | 0x16 => formalParameter <$> u8.read
  | 0x17 => throws <$> u16.read
  | 0x40 => localVariable .variable <$> (list 2 LiveRange.format).read
  | 0x41 => localVariable .resource <$> (list 2 LiveRange.format).read
  | 0x42 => .catch <$> u16.read
  | 0x43 => offset .instanceOf <$> u16.read
  | 0x44 => offset .new <$> u16.read
  | 0x45 => offset .constructorReference <$> u16.read
  | 0x46 => offset .methodReference <$> u16.read
  | 0x47 => (fun (pc, argument) => typeArgument .cast pc argument) <$> (u16.seq u8).read
  | 0x48 => (fun (pc, argument) => typeArgument .constructorCall pc argument) <$> (u16.seq u8).read
  | 0x49 => (fun (pc, argument) => typeArgument .methodCall pc argument) <$> (u16.seq u8).read
  | 0x4A => (fun (pc, argument) => typeArgument .constructorReference pc argument) <$>
      (u16.seq u8).read
  | 0x4B => (fun (pc, argument) => typeArgument .methodReference pc argument) <$> (u16.seq u8).read
  | _ => throw (.unknownTargetType number)

open Format in
def writeOperands : TypeTarget → Except WriteFault Bytes
  | typeParameter _ index | formalParameter index => u8.write index
  | superType index | throws index | .catch index | offset _ index => u16.write index
  | typeParameterBound _ parameter bound => (u8.seq u8).write (parameter, bound)
  | sole _ => .ok []
  | localVariable _ ranges => (list 2 LiveRange.format).write ranges
  | typeArgument _ pc argument => (u16.seq u8).write (pc, argument)

def format : Format TypeTarget where
  read := do readOperands (← Reader.byte)
  write target := do return target.number :: (← target.writeOperands)

end TypeTarget

structure TypeAnnotationUse where
  target : TypeTarget
  /-- The steps from the type to its annotated part, as kind and argument index. -/
  path : List (UInt8 × UInt8)
  content : AnnotationUse
  deriving Repr

namespace TypeAnnotationUse

def format : Format TypeAnnotationUse :=
  (TypeTarget.format.seq ((Format.list 1 (Format.u8.seq Format.u8)).seq AnnotationUse.format)).map
    (fun (target, path, content) => ⟨target, path, content⟩)
    fun use => (use.target, use.path, use.content)

def listFormat : Format (List TypeAnnotationUse) := Format.list 2 format

end TypeAnnotationUse

end StaticCompanion
