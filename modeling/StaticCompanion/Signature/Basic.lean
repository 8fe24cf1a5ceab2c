import StaticCompanion.Descriptor.Basic

namespace StaticCompanion

/-- A bound of a wildcard: `+` from above, `-` from below. -/
inductive Bound where
  | upper
  | lower
  deriving DecidableEq, Repr

mutual

inductive RefType where
  | typeVariable (name : String)
  | primitiveArray (element : Primitive)
  | array (element : RefType)
  | object (name : String) (suffix : ClassSuffix)

/-- What follows the outer name of a class type: type arguments and member classes. -/
inductive ClassSuffix where
  | done
  | member (name : String) (rest : ClassSuffix)
  | arguments (list : TypeArguments) (rest : ClassSuffix)

inductive TypeArguments where
  | done
  | wildcard (rest : TypeArguments)
  | type (bound : Option Bound) (type : RefType) (rest : TypeArguments)

end

inductive JavaType where
  | primitive (type : Primitive)
  | reference (type : RefType)

structure TypeParameter where
  name : String
  classBound : Option RefType
  interfaceBounds : List RefType

inductive SignatureBody where
  /-- A method; a missing result is `void`. -/
  | method (parameters : List JavaType) (result : Option JavaType) (throws : List RefType)
  /-- A field, or a superclass with its interfaces. -/
  | types (first : RefType) (rest : List RefType)

/-- A signature; an empty list of type parameters differs from a missing one. -/
structure Signature where
  typeParameters : Option (List TypeParameter)
  body : SignatureBody

def Bound.mark : Bound → Char
  | upper => '+'
  | lower => '-'

mutual

def RefType.chars : RefType → List Char
  | .typeVariable name => 'T' :: name.toList ++ [';']
  | .primitiveArray element => ['[', element.letter]
  | .array element => '[' :: element.chars
  | .object name suffix => 'L' :: name.toList ++ suffix.chars

def ClassSuffix.chars : ClassSuffix → List Char
  | .done => [';']
  | .member name rest => '.' :: name.toList ++ rest.chars
  | .arguments list rest => '<' :: list.chars ++ rest.chars

def TypeArguments.chars : TypeArguments → List Char
  | .done => ['>']
  | .wildcard rest => '*' :: rest.chars
  | .type bound type rest => bound.toList.map Bound.mark ++ type.chars ++ rest.chars

end

mutual

def RefType.rename (names : Renaming) : RefType → RefType
  | .typeVariable name => .typeVariable name
  | .primitiveArray element => .primitiveArray element
  | .array element => .array (element.rename names)
  | .object name suffix => .object (names.apply name) (suffix.rename names)

def ClassSuffix.rename (names : Renaming) : ClassSuffix → ClassSuffix
  | .done => .done
  | .member name rest => .member name (rest.rename names)
  | .arguments list rest => .arguments (list.rename names) (rest.rename names)

def TypeArguments.rename (names : Renaming) : TypeArguments → TypeArguments
  | .done => .done
  | .wildcard rest => .wildcard (rest.rename names)
  | .type bound type rest => .type bound (type.rename names) (rest.rename names)

end

namespace JavaType

def chars : JavaType → List Char
  | primitive type => [type.letter]
  | reference type => type.chars

def rename (names : Renaming) : JavaType → JavaType
  | primitive type => primitive type
  | reference type => reference (type.rename names)

end JavaType

namespace TypeParameter

def chars (parameter : TypeParameter) : List Char :=
  parameter.name.toList ++ ':' :: (parameter.classBound.elim [] RefType.chars ++
    parameter.interfaceBounds.flatMap fun bound => ':' :: bound.chars)

def rename (names : Renaming) (parameter : TypeParameter) : TypeParameter where
  name := parameter.name
  classBound := parameter.classBound.map (RefType.rename names)
  interfaceBounds := parameter.interfaceBounds.map (RefType.rename names)

end TypeParameter

namespace SignatureBody

def chars : SignatureBody → List Char
  | method parameters result throws =>
    '(' :: parameters.flatMap JavaType.chars ++ ')' :: result.elim ['V'] JavaType.chars ++
      throws.flatMap fun thrown => '^' :: thrown.chars
  | types first rest => first.chars ++ rest.flatMap RefType.chars

def rename (names : Renaming) : SignatureBody → SignatureBody
  | method parameters result throws =>
    method (parameters.map (JavaType.rename names)) (result.map (JavaType.rename names))
      (throws.map (RefType.rename names))
  | types first rest => types (first.rename names) (rest.map (RefType.rename names))

end SignatureBody

namespace Signature

def chars (signature : Signature) : List Char :=
  signature.typeParameters.elim [] (fun parameters =>
    '<' :: parameters.flatMap TypeParameter.chars ++ ['>']) ++ signature.body.chars

def render (signature : Signature) : String := String.ofList signature.chars

def rename (names : Renaming) (signature : Signature) : Signature where
  typeParameters := signature.typeParameters.map (List.map (TypeParameter.rename names))
  body := signature.body.rename names

end Signature

end StaticCompanion
