import StaticCompanion.Proofs.SignatureWriting

/-!
# Signatures are renamed while they are read

A copier goes through a signature once and writes as it goes on: each character as it stands, but
for the outer name of a class its new name. It makes no tree. What it gives is the text of the
renamed tree nevertheless.
-/
namespace StaticCompanion

/-- What is left of a text, and what has been written. -/
structure Copying where
  input : List Char
  output : List Char

namespace Copying

def peek (copy : Copying) : Option Char := copy.input.head?

def bump (copy : Copying) : Copying :=
  match copy.input with
  | [] => copy
  | c :: input => ⟨input, copy.output ++ [c]⟩

def expect (expected : Char) (copy : Copying) : Option Copying :=
  match copy.input with
  | [] => none
  | c :: input => if c = expected then some ⟨input, copy.output ++ [expected]⟩ else none

def atEnd (copy : Copying) : Option Copying := if copy.peek.isNone then some copy else none

/-- Moves one character after the other behind those that are taken, up to one that ends a name. -/
def takeInto (ends : Char → Bool) (taken : List Char) : List Char → List Char × List Char
  | [] => (taken, [])
  | c :: input => if ends c then (taken, c :: input) else takeInto ends (taken ++ [c]) input

def identifier (copy : Copying) : Copying :=
  let (output, input) := takeInto endsIdentifier copy.output copy.input
  ⟨input, output⟩

def className (names : Renaming) (copy : Copying) : Option Copying :=
  match takeInto endsClassName [] copy.input with
  | ([], _) => none
  | (name, input) => some ⟨input, copy.output ++ (names.apply (String.ofList name)).toList⟩

def javaType (referenceType : Copying → Option Copying) (copy : Copying) : Option Copying := do
  match Primitive.ofLetter? (← copy.peek) with
  | some _ => return copy.bump
  | none => referenceType copy

section Loops
variable (names : Renaming)

mutual

def referenceType : (budget : Nat) → Copying → Option Copying
  | 0, _ => none
  | budget + 1, copy => do
    match ← copy.peek with
    | 'L' =>
      let copy ← copy.expect 'L'
      classSuffix budget (← copy.className names)
    | 'T' => copy.bump.identifier.expect ';'
    | '[' => copy.bump.javaType (referenceType budget)
    | _ => none

/-- The loop behind the outer name of a class. -/
def classSuffix : (budget : Nat) → Copying → Option Copying
  | 0, _ => none
  | budget + 1, copy => do
    match ← copy.peek with
    | '<' => classSuffix budget (← typeArguments budget (← copy.expect '<'))
    | '.' => classSuffix budget copy.bump.identifier
    | ';' => return copy.bump
    | _ => none

def typeArguments : (budget : Nat) → Copying → Option Copying
  | 0, _ => none
  | budget + 1, copy => do
    match ← copy.peek with
    | '>' => copy.expect '>'
    | '*' => typeArguments budget copy.bump
    | '+' | '-' => typeArguments budget (← referenceType budget copy.bump)
    | _ => typeArguments budget (← referenceType budget copy)

end

def interfaceBounds : (budget : Nat) → Copying → Option Copying
  | 0, _ => none
  | budget + 1, copy => do
    if (← copy.peek) = ':' then interfaceBounds budget (← copy.bump.referenceType names budget)
    else return copy

def classBound (budget : Nat) (copy : Copying) : Option Copying := do
  if (← copy.peek) = ':' then return copy else copy.referenceType names budget

def typeParameter (budget : Nat) (copy : Copying) : Option Copying := do
  let copy ← copy.identifier.expect ':'
  interfaceBounds names budget (← copy.classBound names budget)

def typeParameters : (budget : Nat) → Copying → Option Copying
  | 0, _ => none
  | budget + 1, copy => do
    if (← copy.peek) = '>' then copy.expect '>'
    else typeParameters budget (← copy.typeParameter names budget)

def parameterTypes : (budget : Nat) → Copying → Option Copying
  | 0, _ => none
  | budget + 1, copy => do
    if (← copy.peek) = ')' then return copy.bump
    else parameterTypes budget (← copy.javaType (referenceType names budget))

def result (budget : Nat) (copy : Copying) : Option Copying := do
  if (← copy.peek) = 'V' then return copy.bump
  else copy.javaType (referenceType names budget)

def throws : (budget : Nat) → Copying → Option Copying
  | _, ⟨[], output⟩ => some ⟨[], output⟩
  | 0, _ => none
  | budget + 1, copy => do
    if copy.peek = some '^' then throws budget (← copy.bump.referenceType names budget)
    else return copy

def superTypes : (budget : Nat) → Copying → Option Copying
  | _, ⟨[], output⟩ => some ⟨[], output⟩
  | 0, _ => none
  | budget + 1, copy => do superTypes budget (← copy.referenceType names budget)

def body (budget : Nat) (copy : Copying) : Option Copying := do
  if copy.peek = some '(' then
    let copy ← copy.bump.parameterTypes names budget
    throws names budget (← copy.result names budget)
  else superTypes names budget (← copy.referenceType names budget)

def signature (budget : Nat) (copy : Copying) : Option Copying := do
  if copy.peek = some '<' then
    let copy ← typeParameters names budget (← copy.expect '<')
    atEnd (← copy.body names budget)
  else atEnd (← copy.body names budget)

end Loops

end Copying

/-- Copies a text with the new names of its classes within a budget. -/
def Signature.copyText (names : Renaming) (budget : Nat) (text : String) :
    Except InvalidDescriptor String :=
  match Copying.signature names budget ⟨text.toList, []⟩ with
  | some copy => .ok (String.ofList copy.output)
  | none => .error ⟨text⟩

/-- The copier goes as far as the reader does, and writes what is written for the value that is
read. -/
def Copies {α : Type} (written : α → List Char) (reader : List Char → Option (α × List Char))
    (copier : Copying → Option Copying) : Prop :=
  ∀ input output, copier ⟨input, output⟩ =
    (reader input).map fun (value, rest) => ⟨rest, output ++ written value⟩

namespace Copies
variable {α β γ : Type} {written : α → List Char} {written' : β → List Char}
  {writtenBoth : γ → List Char} {reader : List Char → Option (α × List Char)}
  {reader' : List Char → Option (β × List Char)} {copier copier' : Copying → Option Copying}

theorem wrap (h : Copies written reader copier) {make : α → γ} {front : List Char}
    (input output : List Char) (hmake : ∀ a, writtenBoth (make a) = front ++ written a) :
    copier ⟨input, output ++ front⟩ = (do
      let (a, rest) ← reader input
      return (make a, rest)).map fun (c, rest) => ⟨rest, output ++ writtenBoth c⟩ := by
  rw [h]
  cases reader input with
  | none => rfl
  | some found => simp [hmake]

theorem bind_map (h : Copies written' reader' copier') {make : α → β → γ} {front : List Char}
    (found : Option (α × List Char)) (output : List Char)
    (hmake : ∀ a b, writtenBoth (make a b) = front ++ (written a ++ written' b)) :
    ((found.map fun (a, text) => ⟨text, output ++ front ++ written a⟩) >>= copier') = (do
      let (a, text) ← found
      let (b, rest) ← reader' text
      return (make a b, rest)).map fun (c, rest) => ⟨rest, output ++ writtenBoth c⟩ := by
  cases found with
  | none => rfl
  | some found =>
    obtain ⟨a, text⟩ := found
    simp only [Option.map_some, Option.bind_eq_bind, Option.bind_some]
    rw [h]
    cases reader' text with
    | none => rfl
    | some found => simp [hmake]

theorem andThen (h : Copies written reader copier) (h' : Copies written' reader' copier')
    {make : α → β → γ} {front : List Char} (input output : List Char)
    (hmake : ∀ a b, writtenBoth (make a b) = front ++ (written a ++ written' b)) :
    (copier ⟨input, output ++ front⟩ >>= copier') = (do
      let (a, text) ← reader input
      let (b, rest) ← reader' text
      return (make a b, rest)).map fun (c, rest) => ⟨rest, output ++ writtenBoth c⟩ := by
  rw [h]
  exact h'.bind_map _ output hmake

end Copies

theorem RefType.parse_nil (budget : Nat) : RefType.parse budget [] = none := by
  cases budget <;> rfl

namespace Copying

theorem takeInto_eq (ends : Char → Bool) (taken input : List Char) :
    takeInto ends taken input =
      (taken ++ input.takeWhile (!ends ·), input.dropWhile (!ends ·)) := by
  induction input generalizing taken with
  | nil => simp [takeInto]
  | cons c input ih =>
    rw [takeInto]
    split
    · rename_i hends
      simp [hends]
    · rename_i hends
      rw [ih]
      simp [hends]

theorem identifier_eq {input rest : List Char} {name : String}
    (h : takeName endsIdentifier input = (name, rest)) (output : List Char) :
    identifier ⟨input, output⟩ = ⟨rest, output ++ name.toList⟩ := by
  obtain ⟨rfl, rfl⟩ := Prod.mk.inj h
  rw [identifier, takeInto_eq, String.toList_ofList]

theorem expect_cons (expected : Char) (rest output : List Char) :
    expect expected ⟨expected :: rest, output⟩ = some ⟨rest, output ++ [expected]⟩ := if_pos rfl

theorem expect_of_ne {expected : Char} {input : List Char}
    (h : ∀ rest, input ≠ expected :: rest) (output : List Char) :
    expect expected ⟨input, output⟩ = none := by
  cases input with
  | nil => rfl
  | cons c rest =>
    apply if_neg
    rintro rfl
    exact h rest rfl

section Copies
variable {names : Renaming} {budget : Nat}

theorem className_eq {input rest : List Char} {name : String}
    (h : takeName endsClassName input = (name, rest)) (output : List Char) :
    className names ⟨input, output⟩ =
      if name = "" then none else some ⟨rest, output ++ (names.apply name).toList⟩ := by
  obtain ⟨rfl, rfl⟩ := Prod.mk.inj h
  rw [className, takeInto_eq, List.nil_append]
  cases input.takeWhile (!endsClassName ·) with
  | nil => rfl
  | cons c name => rw [if_neg (by simp [← String.toList_inj])]

section Trees
variable (htypes : Copies (RefType.chars ∘ RefType.rename names) (RefType.parse budget)
    (referenceType names budget))
  (hsuffixes : Copies (ClassSuffix.chars ∘ ClassSuffix.rename names) (ClassSuffix.parse budget)
    (classSuffix names budget))
  (hlists : Copies (TypeArguments.chars ∘ TypeArguments.rename names) (TypeArguments.parse budget)
    (typeArguments names budget))

include hsuffixes in
theorem referenceType_object (text output : List Char) :
    referenceType names (budget + 1) ⟨'L' :: text, output⟩ =
      (RefType.parse (budget + 1) ('L' :: text)).map fun (type, rest) =>
        ⟨rest, output ++ (RefType.chars ∘ RefType.rename names) type⟩ := by
  simp only [referenceType, RefType.parse, peek, List.head?_cons, Option.bind_eq_bind,
    Option.bind_some, expect_cons]
  cases hname : takeName endsClassName text with
  | mk name rest =>
    rw [className_eq hname]
    split
    · rename_i hempty
      rw [hempty]
      rfl
    · rename_i hempty
      rw [List.append_assoc]
      split
      · rename_i hsame
        cases hsame
        exact absurd rfl hempty
      · rename_i hsame
        cases hsame
        exact hsuffixes.wrap rest output fun _ => rfl

theorem referenceType_typeVariable (text output : List Char) :
    referenceType names (budget + 1) ⟨'T' :: text, output⟩ =
      (RefType.parse (budget + 1) ('T' :: text)).map fun (type, rest) =>
        ⟨rest, output ++ (RefType.chars ∘ RefType.rename names) type⟩ := by
  simp only [referenceType, RefType.parse, peek, List.head?_cons, Option.bind_eq_bind,
    Option.bind_some, bump]
  cases hname : takeName endsIdentifier text with
  | mk name rest =>
    rw [identifier_eq hname]
    split
    · rename_i hsame
      cases hsame
      simp [expect_cons, RefType.rename, RefType.chars]
    · rename_i hother
      rw [expect_of_ne fun rest hrest => hother name rest (by rw [hrest])]
      rfl

include htypes in
theorem referenceType_array (text output : List Char) :
    referenceType names (budget + 1) ⟨'[' :: text, output⟩ =
      (RefType.parse (budget + 1) ('[' :: text)).map fun (type, rest) =>
        ⟨rest, output ++ (RefType.chars ∘ RefType.rename names) type⟩ := by
  cases text with
  | nil => rfl
  | cons letter rest =>
    simp only [referenceType, javaType, RefType.parse, peek, List.head?_cons, bump,
      Option.bind_eq_bind, Option.bind_some]
    cases hletter : Primitive.ofLetter? letter with
    | some element =>
      obtain rfl := Primitive.ofLetter?_eq_some_iff.mp hletter
      simp [RefType.rename, RefType.chars]
    | none => exact htypes.wrap (letter :: rest) output fun _ => rfl

include htypes hsuffixes in
theorem copies_types : Copies (RefType.chars ∘ RefType.rename names)
    (RefType.parse (budget + 1)) (referenceType names (budget + 1)) := by
  intro input output
  cases input with
  | nil => rfl
  | cons c text =>
    by_cases hclass : c = 'L'
    · subst hclass
      exact referenceType_object hsuffixes text output
    by_cases hvariable : c = 'T'
    · subst hvariable
      exact referenceType_typeVariable text output
    by_cases harray : c = '['
    · subst harray
      exact referenceType_array htypes text output
    simp [referenceType, RefType.parse, peek, hclass, hvariable, harray]

include hsuffixes hlists in
theorem copies_suffixes : Copies (ClassSuffix.chars ∘ ClassSuffix.rename names)
    (ClassSuffix.parse (budget + 1)) (classSuffix names (budget + 1)) := by
  intro input output
  cases input with
  | nil => rfl
  | cons c text =>
    by_cases hlist : c = '<'
    · subst hlist
      simp only [classSuffix, ClassSuffix.parse, peek, List.head?_cons, Option.bind_eq_bind,
        Option.bind_some, expect_cons]
      exact hlists.andThen hsuffixes text output fun _ _ => rfl
    by_cases hmember : c = '.'
    · subst hmember
      simp only [classSuffix, ClassSuffix.parse, peek, List.head?_cons, Option.bind_eq_bind,
        Option.bind_some, bump]
      cases hname : takeName endsIdentifier text with
      | mk name rest =>
        rw [identifier_eq hname, List.append_assoc]
        exact hsuffixes.wrap rest output fun _ => rfl
    by_cases hdone : c = ';'
    · subst hdone
      rfl
    simp [classSuffix, ClassSuffix.parse, peek, hlist, hmember, hdone]

include htypes hlists in
theorem copies_lists : Copies (TypeArguments.chars ∘ TypeArguments.rename names)
    (TypeArguments.parse (budget + 1)) (typeArguments names (budget + 1)) := by
  intro input output
  cases input with
  | nil =>
    rw [TypeArguments.parse, RefType.parse_nil]
    · rfl
    all_goals simp
  | cons c text =>
    by_cases hdone : c = '>'
    · subst hdone
      rfl
    by_cases hwildcard : c = '*'
    · subst hwildcard
      exact hlists.wrap text output fun _ => rfl
    by_cases hupper : c = '+'
    · subst hupper
      exact htypes.andThen hlists text output fun _ _ => rfl
    by_cases hlower : c = '-'
    · subst hlower
      exact htypes.andThen hlists text output fun _ _ => rfl
    have hread : TypeArguments.parse (budget + 1) (c :: text) = (do
        let argument ← RefType.parse budget (c :: text)
        let list ← TypeArguments.parse budget argument.2
        return (.type none argument.1 list.1, list.2)) := by
      simp [TypeArguments.parse, hdone, hwildcard, hupper, hlower]
    have hcopy : typeArguments names (budget + 1) ⟨c :: text, output⟩ =
        (referenceType names budget ⟨c :: text, output ++ []⟩ >>= typeArguments names budget) := by
      simp [typeArguments, peek]
    rw [hread, hcopy]
    exact htypes.andThen hlists (c :: text) output fun _ _ => rfl

end Trees

variable (names budget) in
/-- The copiers of the trees copy what the readers read, whatever their budget is. -/
theorem copies_trees :
    Copies (RefType.chars ∘ RefType.rename names) (RefType.parse budget)
      (referenceType names budget) ∧
    Copies (ClassSuffix.chars ∘ ClassSuffix.rename names) (ClassSuffix.parse budget)
      (classSuffix names budget) ∧
    Copies (TypeArguments.chars ∘ TypeArguments.rename names) (TypeArguments.parse budget)
      (typeArguments names budget) := by
  induction budget with
  | zero =>
    refine ⟨?_, ?_, ?_⟩
    · intro input output
      simp [RefType.parse, referenceType]
    · intro input output
      simp [ClassSuffix.parse, classSuffix]
    · intro input output
      simp [TypeArguments.parse, typeArguments]
  | succ budget ih =>
    obtain ⟨htypes, hsuffixes, hlists⟩ := ih
    exact ⟨copies_types htypes hsuffixes, copies_suffixes hsuffixes hlists,
      copies_lists htypes hlists⟩

variable (names budget) in
theorem copies_referenceType : Copies (RefType.chars ∘ RefType.rename names) (RefType.parse budget)
    (referenceType names budget) := (copies_trees names budget).1

variable (names budget) in
theorem copies_javaType : Copies (JavaType.chars ∘ JavaType.rename names) (JavaType.parse budget)
    (javaType (referenceType names budget)) := by
  intro input output
  cases input with
  | nil => rfl
  | cons c text =>
    cases hletter : Primitive.ofLetter? c with
    | some primitive =>
      obtain rfl := Primitive.ofLetter?_eq_some_iff.mp hletter
      simp [javaType, JavaType.parse, peek, bump, hletter, JavaType.rename, JavaType.chars]
    | none =>
      have hread : JavaType.parse budget (c :: text) = (do
          let type ← RefType.parse budget (c :: text)
          return (.reference type.1, type.2)) := by
        rw [JavaType.parse, hletter]
      have hcopy : javaType (referenceType names budget) ⟨c :: text, output⟩ =
          referenceType names budget ⟨c :: text, output ++ []⟩ := by
        simp [javaType, peek, hletter]
      rw [hread, hcopy]
      exact (copies_referenceType names budget).wrap (c :: text) output fun _ => rfl

theorem copies_parameterTypes : Copies
    ((· ++ [')']) ∘ List.flatMap JavaType.chars ∘ List.map (JavaType.rename names))
    (parseParameterTypes budget) (parameterTypes names budget) := by
  induction budget with
  | zero =>
    intro input output
    rfl
  | succ budget ih =>
    intro input output
    cases input with
    | nil => rfl
    | cons c text =>
      by_cases hend : c = ')'
      · subst hend
        rfl
      have hread : parseParameterTypes (budget + 1) (c :: text) = (do
          let type ← JavaType.parse budget (c :: text)
          let types ← parseParameterTypes budget type.2
          return (type.1 :: types.1, types.2)) := by
        simp [parseParameterTypes, hend]
      have hcopy : parameterTypes names (budget + 1) ⟨c :: text, output⟩ =
          (javaType (referenceType names budget) ⟨c :: text, output ++ []⟩ >>=
            parameterTypes names budget) := by
        simp [parameterTypes, peek, hend]
      rw [hread, hcopy]
      exact (copies_javaType names budget).andThen ih (c :: text) output fun _ _ => by simp

theorem copies_result : Copies
    ((Option.elim · ['V'] JavaType.chars) ∘ Option.map (JavaType.rename names))
    (parseResult budget) (result names budget) := by
  intro input output
  cases input with
  | nil => rfl
  | cons c text =>
    by_cases hvoid : c = 'V'
    · subst hvoid
      rfl
    have hread : parseResult budget (c :: text) = (do
        let type ← JavaType.parse budget (c :: text)
        return (some type.1, type.2)) := by
      simp [parseResult, hvoid]
    have hcopy : result names budget ⟨c :: text, output⟩ =
        javaType (referenceType names budget) ⟨c :: text, output ++ []⟩ := by
      simp [result, peek, hvoid]
    rw [hread, hcopy]
    exact (copies_javaType names budget).wrap (c :: text) output fun _ => rfl

theorem copies_throws : Copies
    (List.flatMap (fun type => '^' :: type.chars) ∘ List.map (RefType.rename names))
    (parseMarked '^' budget) (throws names budget) := by
  induction budget with
  | zero =>
    intro input output
    cases input with
    | nil => simp [throws, parseMarked]
    | cons c text => rfl
  | succ budget ih =>
    intro input output
    cases input with
    | nil => simp [throws, parseMarked]
    | cons c text =>
      by_cases hmark : c = '^'
      · subst hmark
        exact (copies_referenceType names budget).andThen ih text output fun _ _ => rfl
      · simp [throws, parseMarked, peek, hmark]

theorem copies_superTypes : Copies (List.flatMap RefType.chars ∘ List.map (RefType.rename names))
    (fun input => (parseRefTypes budget input).map (·, [])) (superTypes names budget) := by
  induction budget with
  | zero =>
    intro input output
    cases input with
    | nil => simp [superTypes, parseRefTypes]
    | cons c text => rfl
  | succ budget ih =>
    intro input output
    cases input with
    | nil => simp [superTypes, parseRefTypes]
    | cons c text =>
      have hread : (parseRefTypes (budget + 1) (c :: text)).map (·, ([] : List Char)) = (do
          let type ← RefType.parse budget (c :: text)
          let types ← (parseRefTypes budget type.2).map (·, [])
          return (type.1 :: types.1, types.2)) := by
        rw [parseRefTypes]
        · cases RefType.parse budget (c :: text) with
          | none => rfl
          | some found =>
            simp only [Option.bind_eq_bind, Option.bind_some]
            cases parseRefTypes budget found.2 <;> rfl
        · simp
      have hcopy : superTypes names (budget + 1) ⟨c :: text, output⟩ =
          (referenceType names budget ⟨c :: text, output ++ []⟩ >>= superTypes names budget) := by
        simp [superTypes]
      dsimp only
      rw [hread, hcopy]
      exact (copies_referenceType names budget).andThen ih (c :: text) output fun _ _ => rfl

/-- At the end of the text the loop over bounds fails, where the reader is still content. So does
what follows. -/
theorem interfaceBounds_bind {next : Copying → Option Copying}
    (hnext : ∀ output, next ⟨[], output⟩ = none) (input output : List Char) :
    (interfaceBounds names budget ⟨input, output⟩ >>= next) =
      ((parseMarked ':' budget input).map fun (bounds, rest) => ⟨rest, output ++
        (bounds.map (RefType.rename names)).flatMap fun bound => ':' :: bound.chars⟩) >>= next := by
  induction budget generalizing input output with
  | zero =>
    cases input with
    | nil => simp [interfaceBounds, parseMarked, hnext]
    | cons c text => rfl
  | succ budget ih =>
    cases input with
    | nil => simp [interfaceBounds, parseMarked, hnext, peek]
    | cons c text =>
      by_cases hmark : c = ':'
      · subst hmark
        have hcopy : interfaceBounds names (budget + 1) ⟨':' :: text, output⟩ =
            (referenceType names budget ⟨text, output ++ [':']⟩ >>= interfaceBounds names budget) :=
          rfl
        have hread : parseMarked ':' (budget + 1) (':' :: text) = (do
            let type ← RefType.parse budget text
            let types ← parseMarked ':' budget type.2
            return (type.1 :: types.1, types.2)) := rfl
        rw [hcopy, hread, copies_referenceType]
        cases RefType.parse budget text with
        | none => rfl
        | some found =>
          obtain ⟨type, text⟩ := found
          simp only [Option.map_some, Option.bind_eq_bind, Option.bind_some] at ih ⊢
          rw [ih]
          cases parseMarked ':' budget text with
          | none => rfl
          | some found => simp
      · simp [interfaceBounds, parseMarked, peek, hmark]

theorem typeParameter_bind {next : Copying → Option Copying}
    (hnext : ∀ output, next ⟨[], output⟩ = none) (input output : List Char) :
    (typeParameter names budget ⟨input, output⟩ >>= next) =
      ((TypeParameter.parse budget input).map fun (parameter, rest) =>
        ⟨rest, output ++ (TypeParameter.chars ∘ TypeParameter.rename names) parameter⟩) >>=
          next := by
  unfold typeParameter TypeParameter.parse
  cases hname : takeName endsIdentifier input with
  | mk name rest =>
    rw [identifier_eq hname]
    split
    · rename_i text hsame
      cases hsame
      rw [expect_cons]
      simp only [Option.bind_eq_bind, Option.bind_some, classBound, peek, List.head?_cons,
        if_true, Option.pure_def]
      rw [← Option.bind_eq_bind, interfaceBounds_bind hnext]
      cases parseMarked ':' budget (':' :: text) with
      | none => rfl
      | some found => simp [TypeParameter.rename, TypeParameter.chars]
    · rename_i text hcolon hsame
      cases hsame
      rw [expect_cons]
      have hbound : classBound names budget ⟨text, output ++ name.toList ++ [':']⟩ =
          referenceType names budget ⟨text, output ++ name.toList ++ [':']⟩ := by
        cases text with
        | nil => cases budget <;> rfl
        | cons c text =>
          have hc : c ≠ ':' := fun hc => hcolon text (by rw [hc])
          simp [classBound, peek, hc]
      simp only [Option.bind_eq_bind, Option.bind_some, hbound]
      rw [copies_referenceType]
      cases RefType.parse budget text with
      | none => rfl
      | some found =>
        obtain ⟨bound, text⟩ := found
        simp only [Option.map_some, Option.bind_some]
        rw [← Option.bind_eq_bind, interfaceBounds_bind hnext]
        cases parseMarked ':' budget text with
        | none => rfl
        | some found => simp [TypeParameter.rename, TypeParameter.chars]
    · rename_i hcolon
      rw [expect_of_ne fun rest hrest => hcolon name rest (by rw [hrest])]
      rfl

theorem copies_typeParameters : Copies
    ((· ++ ['>']) ∘ List.flatMap TypeParameter.chars ∘ List.map (TypeParameter.rename names))
    (parseTypeParameters budget) (typeParameters names budget) := by
  induction budget with
  | zero =>
    intro input output
    rfl
  | succ budget ih =>
    intro input output
    cases input with
    | nil => rfl
    | cons c text =>
      by_cases hend : c = '>'
      · subst hend
        rfl
      have hread : parseTypeParameters (budget + 1) (c :: text) = (do
          let parameter ← TypeParameter.parse budget (c :: text)
          let parameters ← parseTypeParameters budget parameter.2
          return (parameter.1 :: parameters.1, parameters.2)) := by
        simp [parseTypeParameters, hend]
      have hcopy : typeParameters names (budget + 1) ⟨c :: text, output⟩ =
          (typeParameter names budget ⟨c :: text, output ++ []⟩ >>=
            typeParameters names budget) := by
        simp [typeParameters, peek, hend]
      have hnext (output : List Char) : typeParameters names budget ⟨[], output⟩ = none := by
        cases budget <;> rfl
      rw [hread, hcopy, typeParameter_bind hnext]
      exact ih.bind_map _ output fun _ _ => by simp

theorem method_bind (text output : List Char) :
    (body names budget ⟨'(' :: text, output⟩ >>= atEnd) =
      (SignatureBody.parse budget ('(' :: text)).map fun body =>
        ⟨[], output ++ (body.rename names).chars⟩ := by
  have hcopy : body names budget ⟨'(' :: text, output⟩ = (do
      let copy ← parameterTypes names budget ⟨text, output ++ ['(']⟩
      throws names budget (← copy.result names budget)) := rfl
  rw [hcopy, SignatureBody.parse, copies_parameterTypes]
  cases parseParameterTypes budget text with
  | none => rfl
  | some found =>
    obtain ⟨parameters, text⟩ := found
    simp only [Option.map_some, Option.bind_eq_bind, Option.bind_some]
    rw [copies_result]
    cases parseResult budget text with
    | none => rfl
    | some found =>
      obtain ⟨result, text⟩ := found
      simp only [Option.map_some, Option.bind_some]
      rw [copies_throws]
      cases parseMarked '^' budget text with
      | none => rfl
      | some found =>
        obtain ⟨thrown, rest⟩ := found
        cases rest with
        | nil => simp [atEnd, peek, SignatureBody.rename, SignatureBody.chars]
        | cons c rest => rfl

theorem body_bind (input output : List Char) : (body names budget ⟨input, output⟩ >>= atEnd) =
    (SignatureBody.parse budget input).map fun body =>
      ⟨[], output ++ (body.rename names).chars⟩ := by
  cases input with
  | nil => cases budget <;> rfl
  | cons c text =>
    by_cases hmethod : c = '('
    · subst hmethod
      exact method_bind text output
    have hcopy : body names budget ⟨c :: text, output⟩ =
        (referenceType names budget ⟨c :: text, output⟩ >>= superTypes names budget) := by
      simp [body, peek, hmethod]
    have hread : SignatureBody.parse budget (c :: text) = (do
        let first ← RefType.parse budget (c :: text)
        return .types first.1 (← parseRefTypes budget first.2)) := by
      simp [SignatureBody.parse, hmethod]
    rw [hcopy, hread, copies_referenceType]
    cases RefType.parse budget (c :: text) with
    | none => rfl
    | some found =>
      obtain ⟨first, text⟩ := found
      simp only [Option.map_some, Option.bind_eq_bind, Option.bind_some]
      rw [copies_superTypes]
      dsimp only
      cases parseRefTypes budget text with
      | none => rfl
      | some types => simp [atEnd, peek, SignatureBody.rename, SignatureBody.chars]

theorem signature_eq (input output : List Char) : signature names budget ⟨input, output⟩ =
    (Signature.parseWithin budget input).map fun tree =>
      ⟨[], output ++ (tree.rename names).chars⟩ := by
  by_cases hparameters : input.head? = some '<'
  · obtain ⟨text, rfl⟩ := List.head?_eq_some_iff.mp hparameters
    have hcopy : signature names budget ⟨'<' :: text, output⟩ = (do
        let copy ← typeParameters names budget ⟨text, output ++ ['<']⟩
        body names budget copy >>= atEnd) := rfl
    rw [hcopy, Signature.parseWithin, copies_typeParameters]
    cases parseTypeParameters budget text with
    | none => rfl
    | some found =>
      obtain ⟨parameters, text⟩ := found
      simp only [Option.map_some, Option.bind_eq_bind, Option.bind_some]
      rw [← Option.bind_eq_bind, body_bind]
      cases SignatureBody.parse budget text with
      | none => rfl
      | some tree => simp [Signature.rename, Signature.chars]
  · have hcopy : signature names budget ⟨input, output⟩ =
        (body names budget ⟨input, output⟩ >>= atEnd) := if_neg hparameters
    have hread : Signature.parseWithin budget input = (do
        return ⟨none, ← SignatureBody.parse budget input⟩) := by
      rw [Signature.parseWithin]
      rintro text rfl
      exact hparameters rfl
    rw [hcopy, hread, body_bind]
    cases SignatureBody.parse budget input with
    | none => rfl
    | some tree => simp [Signature.rename, Signature.chars]

end Copies

end Copying

/-- Renaming a signature while it is read gives what renaming its tree gives, with any budget that
is large enough. -/
theorem Signature.copyText_eq (names : Renaming) (text : String) {budget : Nat}
    (hbudget : 2 * text.toList.length < budget) :
    copyText names budget text = renameText names text := by
  rw [copyText, Copying.signature_eq, parseWithin_eq_parse hbudget, renameText]
  cases parse text.toList <;> rfl

end StaticCompanion
