import StaticCompanion.Signature.Basic

/-!
# Reading signatures

A recursive descent over the characters, with one character of look-ahead. The budget that the
functions take bounds their depth: each character is worth two calls at most, so a budget of
twice the length and one never runs out.
-/
namespace StaticCompanion

def endsIdentifier (c : Char) : Bool :=
  c == '.' || c == ';' || c == '[' || c == '/' || c == '<' || c == '>' || c == ':'

/-- A character that ends the outer name of a class type. -/
def endsClassName (c : Char) : Bool :=
  c == '<' || c == '.' || c == ';'

def takeName (ends : Char → Bool) (text : List Char) : String × List Char :=
  (String.ofList (text.takeWhile (!ends ·)), text.dropWhile (!ends ·))

mutual

/-- Takes a reference type off the front of a text. -/
def RefType.parse : (budget : Nat) → List Char → Option (RefType × List Char)
  | _ + 1, 'T' :: text =>
    match takeName endsIdentifier text with
    | (name, ';' :: rest) => some (.typeVariable name, rest)
    | _ => none
  | budget + 1, '[' :: text =>
    match text with
    | [] => none
    | letter :: rest =>
      match Primitive.ofLetter? letter with
      | some element => some (.primitiveArray element, rest)
      | none => do
        let (element, rest) ← RefType.parse budget text
        return (.array element, rest)
  | budget + 1, 'L' :: text =>
    match takeName endsClassName text with
    | ("", _) => none
    | (name, rest) => do
      let (suffix, rest) ← ClassSuffix.parse budget rest
      return (.object name suffix, rest)
  | _, _ => none

/-- Takes what follows an outer class name, up to the semicolon, off the front of a text. -/
def ClassSuffix.parse : (budget : Nat) → List Char → Option (ClassSuffix × List Char)
  | _ + 1, ';' :: rest => some (.done, rest)
  | budget + 1, '.' :: text => do
    let (name, text) := takeName endsIdentifier text
    let (suffix, rest) ← ClassSuffix.parse budget text
    return (.member name suffix, rest)
  | budget + 1, '<' :: text => do
    let (list, text) ← TypeArguments.parse budget text
    let (suffix, rest) ← ClassSuffix.parse budget text
    return (.arguments list suffix, rest)
  | _, _ => none

/-- Takes type arguments, up to the closing bracket, off the front of a text. -/
def TypeArguments.parse : (budget : Nat) → List Char → Option (TypeArguments × List Char)
  | _ + 1, '>' :: rest => some (.done, rest)
  | budget + 1, '*' :: text => do
    let (list, rest) ← TypeArguments.parse budget text
    return (.wildcard list, rest)
  | budget + 1, '+' :: text => do
    let (argument, text) ← RefType.parse budget text
    let (list, rest) ← TypeArguments.parse budget text
    return (.type (some .upper) argument list, rest)
  | budget + 1, '-' :: text => do
    let (argument, text) ← RefType.parse budget text
    let (list, rest) ← TypeArguments.parse budget text
    return (.type (some .lower) argument list, rest)
  | budget + 1, text => do
    let (argument, text) ← RefType.parse budget text
    let (list, rest) ← TypeArguments.parse budget text
    return (.type none argument list, rest)
  | 0, _ => none

end

def JavaType.parse (budget : Nat) : List Char → Option (JavaType × List Char)
  | [] => none
  | letter :: rest =>
    match Primitive.ofLetter? letter with
    | some type => some (.primitive type, rest)
    | none => do
      let (type, rest) ← RefType.parse budget (letter :: rest)
      return (.reference type, rest)

/-- Takes the reference types that each follow a mark off the front of a text, as long as the
mark is there. -/
def parseMarked (mark : Char) : (budget : Nat) → List Char → Option (List RefType × List Char)
  | budget + 1, c :: text =>
    if c = mark then do
      let (type, text) ← RefType.parse budget text
      let (types, rest) ← parseMarked mark budget text
      return (type :: types, rest)
    else some ([], c :: text)
  | _, [] => some ([], [])
  | 0, _ => none

def TypeParameter.parse (budget : Nat) (text : List Char) :
    Option (TypeParameter × List Char) :=
  match takeName endsIdentifier text with
  | (name, ':' :: ':' :: text) => do
    let (bounds, rest) ← parseMarked ':' budget (':' :: text)
    return (⟨name, none, bounds⟩, rest)
  | (name, ':' :: text) => do
    let (bound, text) ← RefType.parse budget text
    let (bounds, rest) ← parseMarked ':' budget text
    return (⟨name, some bound, bounds⟩, rest)
  | _ => none

def parseTypeParameters : (budget : Nat) → List Char → Option (List TypeParameter × List Char)
  | _ + 1, '>' :: rest => some ([], rest)
  | budget + 1, text => do
    let (parameter, text) ← TypeParameter.parse budget text
    let (parameters, rest) ← parseTypeParameters budget text
    return (parameter :: parameters, rest)
  | 0, _ => none

def parseParameterTypes : (budget : Nat) → List Char → Option (List JavaType × List Char)
  | _ + 1, ')' :: rest => some ([], rest)
  | budget + 1, text => do
    let (type, text) ← JavaType.parse budget text
    let (types, rest) ← parseParameterTypes budget text
    return (type :: types, rest)
  | 0, _ => none

def parseRefTypes : (budget : Nat) → List Char → Option (List RefType)
  | _, [] => some []
  | budget + 1, text => do
    let (type, text) ← RefType.parse budget text
    return type :: (← parseRefTypes budget text)
  | 0, _ => none

/-- Takes the result of a method off the front of a text; `V` is no result. -/
def parseResult (budget : Nat) : List Char → Option (Option JavaType × List Char)
  | 'V' :: rest => some (none, rest)
  | text => do
    let (type, rest) ← JavaType.parse budget text
    return (some type, rest)

def SignatureBody.parse (budget : Nat) : List Char → Option SignatureBody
  | '(' :: text => do
    let (parameters, text) ← parseParameterTypes budget text
    let (result, text) ← parseResult budget text
    match ← parseMarked '^' budget text with
    | (thrown, []) => return .method parameters result thrown
    | _ => none
  | text => do
    let (first, text) ← RefType.parse budget text
    return .types first (← parseRefTypes budget text)

namespace Signature

/-- Reads a text within a budget. -/
def parseWithin (budget : Nat) : List Char → Option Signature
  | '<' :: text => do
    let (parameters, text) ← parseTypeParameters budget text
    return ⟨some parameters, ← SignatureBody.parse budget text⟩
  | text => return ⟨none, ← SignatureBody.parse budget text⟩

def parse (text : List Char) : Option Signature :=
  parseWithin (2 * text.length + 1) text

def renameText (names : Renaming) (text : String) : Except InvalidDescriptor String :=
  match parse text.toList with
  | some signature => .ok (signature.rename names).render
  | none => .error ⟨text⟩

end Signature

end StaticCompanion
