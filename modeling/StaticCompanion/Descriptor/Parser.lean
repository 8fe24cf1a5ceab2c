import StaticCompanion.Descriptor.Basic

namespace StaticCompanion

namespace FieldType

/-- Takes one type off the front of a text. -/
def parse : List Char → Option (FieldType × List Char)
  | [] => none
  | '[' :: text => (parse text).map fun (element, rest) => (array element, rest)
  | 'L' :: text =>
    match text.takeWhile (· ≠ ';'), text.dropWhile (· ≠ ';') with
    | name@(_ :: _), _ :: rest => some (object (String.ofList name), rest)
    | _, _ => none
  | letter :: text => (Primitive.ofLetter? letter).map fun type => (primitive type, text)

theorem parse_length_lt {text rest : List Char} {type : FieldType}
    (parsed : parse text = some (type, rest)) : rest.length < text.length := by
  fun_induction parse text generalizing type with
  | case1 => simp at parsed
  | case2 text ih =>
    obtain ⟨⟨element, rest'⟩, inner, same⟩ := Option.map_eq_some_iff.mp parsed
    obtain ⟨-, rfl⟩ := Prod.mk.inj same
    exact Nat.lt_succ_of_lt (ih inner)
  | case3 text _ _ _ rest' behind _ =>
    obtain ⟨-, rfl⟩ := Prod.mk.inj (Option.some.inj parsed)
    have shorter := (List.dropWhile_sublist (l := text) fun c => decide (c ≠ ';')).length_le
    rw [behind] at shorter
    simp only [List.length_cons] at *
    omega
  | case4 => simp at parsed
  | case5 letter text =>
    obtain ⟨type', -, same⟩ := Option.map_eq_some_iff.mp parsed
    obtain ⟨-, rfl⟩ := Prod.mk.inj same
    simp

def ofDescriptor (descriptor : String) : Except InvalidDescriptor FieldType :=
  match parse descriptor.toList with
  | some (type, []) => .ok type
  | _ => .error ⟨descriptor⟩

end FieldType

def ReturnType.ofDescriptor (descriptor : String) : Except InvalidDescriptor ReturnType :=
  if descriptor = "V" then .ok .void
  else (FieldType.ofDescriptor descriptor).map .value

namespace MethodDescriptor

/-- Takes the types in front of the closing parenthesis, and that parenthesis, off a text. -/
def parseParameters (taken : List FieldType) (text : List Char) :
    Option (List FieldType × List Char) :=
  match text with
  | ')' :: rest => some (taken.reverse, rest)
  | text =>
    match _parsed : FieldType.parse text with
    | some (type, rest) => parseParameters (type :: taken) rest
    | none => none
termination_by text.length
decreasing_by exact FieldType.parse_length_lt _parsed

def ofDescriptor (descriptor : String) : Except InvalidDescriptor MethodDescriptor :=
  match descriptor.toList with
  | '(' :: text =>
    match parseParameters [] text with
    | some (parameters, rest) =>
      match ReturnType.ofDescriptor (String.ofList rest) with
      | .ok result => .ok ⟨parameters, result⟩
      | .error _ => .error ⟨descriptor⟩
    | none => .error ⟨descriptor⟩
  | _ => .error ⟨descriptor⟩

end MethodDescriptor

end StaticCompanion
