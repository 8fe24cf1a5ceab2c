import StaticCompanion.Signature.Parser

namespace StaticCompanion

/-- A name that can stand for a type variable or a member class. -/
def IsIdentifier (name : String) : Prop := ∀ c ∈ name.toList, endsIdentifier c = false

/-- A name that can stand for a class in a signature. -/
def IsOuterName (name : String) : Prop :=
  name ≠ "" ∧ ∀ c ∈ name.toList, endsClassName c = false

/-! ### Trees -/

mutual

def RefType.WellFormed : RefType → Prop
  | .typeVariable name => IsIdentifier name
  | .primitiveArray _ => True
  | .array element => element.WellFormed
  | .object name suffix => IsOuterName name ∧ suffix.WellFormed

def ClassSuffix.WellFormed : ClassSuffix → Prop
  | .done => True
  | .member name rest => IsIdentifier name ∧ rest.WellFormed
  | .arguments list rest => list.WellFormed ∧ rest.WellFormed

def TypeArguments.WellFormed : TypeArguments → Prop
  | .done => True
  | .wildcard rest => rest.WellFormed
  | .type _ type rest => type.WellFormed ∧ rest.WellFormed

end

mutual

/-- The outer names of the class types of a type. -/
def RefType.classNames : RefType → List String
  | .typeVariable _ => []
  | .primitiveArray _ => []
  | .array element => element.classNames
  | .object name suffix => name :: suffix.classNames

def ClassSuffix.classNames : ClassSuffix → List String
  | .done => []
  | .member _ rest => rest.classNames
  | .arguments list rest => list.classNames ++ rest.classNames

def TypeArguments.classNames : TypeArguments → List String
  | .done => []
  | .wildcard rest => rest.classNames
  | .type _ type rest => type.classNames ++ rest.classNames

end

namespace JavaType

def WellFormed : JavaType → Prop
  | primitive _ => True
  | reference type => type.WellFormed

def classNames : JavaType → List String
  | primitive _ => []
  | reference type => type.classNames

end JavaType

namespace TypeParameter

/-- A parameter without bounds has a colon too many, so one of its bounds has to be there. -/
structure WellFormed (parameter : TypeParameter) : Prop where
  name : IsIdentifier parameter.name
  classBound : ∀ type ∈ parameter.classBound, type.WellFormed
  interfaceBounds : ∀ type ∈ parameter.interfaceBounds, type.WellFormed
  bounded : parameter.classBound = none → parameter.interfaceBounds ≠ []

def classNames (parameter : TypeParameter) : List String :=
  parameter.classBound.elim [] RefType.classNames ++
    parameter.interfaceBounds.flatMap RefType.classNames

end TypeParameter

/-- Each parameter is well formed, and all but the first one have names, since the colon of an
empty name would be read as that of a further bound. -/
structure WellFormedParameters (parameters : List TypeParameter) : Prop where
  wellFormed : ∀ parameter ∈ parameters, parameter.WellFormed
  named : ∀ parameter ∈ parameters.tail, parameter.name ≠ ""

namespace SignatureBody

def WellFormed : SignatureBody → Prop
  | method parameters result throws => (∀ type ∈ parameters, type.WellFormed) ∧
    (∀ type ∈ result, type.WellFormed) ∧ ∀ type ∈ throws, type.WellFormed
  | types first rest => first.WellFormed ∧ ∀ type ∈ rest, type.WellFormed

def classNames : SignatureBody → List String
  | method parameters result throws => parameters.flatMap JavaType.classNames ++
    (result.elim [] JavaType.classNames ++ throws.flatMap RefType.classNames)
  | types first rest => first.classNames ++ rest.flatMap RefType.classNames

end SignatureBody

namespace Signature

structure WellFormed (signature : Signature) : Prop where
  typeParameters : ∀ parameters ∈ signature.typeParameters, WellFormedParameters parameters
  body : signature.body.WellFormed

def classNames (signature : Signature) : List String :=
  signature.typeParameters.elim [] (List.flatMap TypeParameter.classNames) ++
    signature.body.classNames

end Signature

section Rename
variable {names : Renaming}

theorem isOuterName_apply (hnames : ∀ old new, names old = some new → IsOuterName new)
    {name : String} (h : IsOuterName name) : IsOuterName (names.apply name) := by
  unfold Renaming.apply
  cases hname : names name with
  | none => exact h
  | some new => exact hnames name new hname

mutual

theorem RefType.wellFormed_rename (hnames : ∀ old new, names old = some new → IsOuterName new) :
    ∀ type : RefType, type.WellFormed → (type.rename names).WellFormed
  | .typeVariable _, h => h
  | .primitiveArray _, _ => trivial
  | .array element, h => RefType.wellFormed_rename hnames element h
  | .object _ suffix, h =>
    ⟨isOuterName_apply hnames h.1, ClassSuffix.wellFormed_rename hnames suffix h.2⟩

theorem ClassSuffix.wellFormed_rename
    (hnames : ∀ old new, names old = some new → IsOuterName new) :
    ∀ suffix : ClassSuffix, suffix.WellFormed → (suffix.rename names).WellFormed
  | .done, _ => trivial
  | .member _ rest, h => ⟨h.1, ClassSuffix.wellFormed_rename hnames rest h.2⟩
  | .arguments list rest, h =>
    ⟨TypeArguments.wellFormed_rename hnames list h.1,
      ClassSuffix.wellFormed_rename hnames rest h.2⟩

theorem TypeArguments.wellFormed_rename
    (hnames : ∀ old new, names old = some new → IsOuterName new) :
    ∀ list : TypeArguments, list.WellFormed → (list.rename names).WellFormed
  | .done, _ => trivial
  | .wildcard rest, h => TypeArguments.wellFormed_rename hnames rest h
  | .type _ type rest, h =>
    ⟨RefType.wellFormed_rename hnames type h.1, TypeArguments.wellFormed_rename hnames rest h.2⟩

end

mutual

theorem RefType.classNames_rename : ∀ type : RefType,
    (type.rename names).classNames = type.classNames.map names.apply
  | .typeVariable _ => rfl
  | .primitiveArray _ => rfl
  | .array element => RefType.classNames_rename element
  | .object name suffix => congrArg (names.apply name :: ·) (ClassSuffix.classNames_rename suffix)

theorem ClassSuffix.classNames_rename : ∀ suffix : ClassSuffix,
    (suffix.rename names).classNames = suffix.classNames.map names.apply
  | .done => rfl
  | .member _ rest => ClassSuffix.classNames_rename rest
  | .arguments list rest => by
    rw [ClassSuffix.rename, ClassSuffix.classNames, ClassSuffix.classNames, List.map_append,
      TypeArguments.classNames_rename list, ClassSuffix.classNames_rename rest]

theorem TypeArguments.classNames_rename : ∀ list : TypeArguments,
    (list.rename names).classNames = list.classNames.map names.apply
  | .done => rfl
  | .wildcard rest => TypeArguments.classNames_rename rest
  | .type _ type rest => by
    rw [TypeArguments.rename, TypeArguments.classNames, TypeArguments.classNames, List.map_append,
      RefType.classNames_rename type, TypeArguments.classNames_rename rest]

end

mutual

theorem RefType.rename_eq_self : ∀ type : RefType,
    (∀ name ∈ type.classNames, names name = none) → type.rename names = type
  | .typeVariable _, _ => rfl
  | .primitiveArray _, _ => rfl
  | .array element, h => congrArg RefType.array (RefType.rename_eq_self element h)
  | .object name suffix, h => by
    obtain ⟨hname, hsuffix⟩ := List.forall_mem_cons.mp h
    rw [RefType.rename, Renaming.apply, hname, Option.getD_none,
      ClassSuffix.rename_eq_self suffix hsuffix]

theorem ClassSuffix.rename_eq_self : ∀ suffix : ClassSuffix,
    (∀ name ∈ suffix.classNames, names name = none) → suffix.rename names = suffix
  | .done, _ => rfl
  | .member name rest, h =>
    congrArg (ClassSuffix.member name) (ClassSuffix.rename_eq_self rest h)
  | .arguments list rest, h => by
    obtain ⟨hlist, hrest⟩ := List.forall_mem_append.mp h
    rw [ClassSuffix.rename, TypeArguments.rename_eq_self list hlist,
      ClassSuffix.rename_eq_self rest hrest]

theorem TypeArguments.rename_eq_self : ∀ list : TypeArguments,
    (∀ name ∈ list.classNames, names name = none) → list.rename names = list
  | .done, _ => rfl
  | .wildcard rest, h =>
    congrArg TypeArguments.wildcard (TypeArguments.rename_eq_self rest h)
  | .type _ type rest, h => by
    obtain ⟨htype, hrest⟩ := List.forall_mem_append.mp h
    rw [TypeArguments.rename, RefType.rename_eq_self type htype,
      TypeArguments.rename_eq_self rest hrest]

end

namespace JavaType

theorem wellFormed_rename (hnames : ∀ old new, names old = some new → IsOuterName new)
    {type : JavaType} (h : type.WellFormed) : (type.rename names).WellFormed := by
  cases type with
  | primitive type => trivial
  | reference type => exact type.wellFormed_rename hnames h

theorem classNames_rename (type : JavaType) :
    (type.rename names).classNames = type.classNames.map names.apply := by
  cases type with
  | primitive type => rfl
  | reference type => exact type.classNames_rename

theorem rename_eq_self {type : JavaType} (h : ∀ name ∈ type.classNames, names name = none) :
    type.rename names = type := by
  cases type with
  | primitive type => rfl
  | reference type => exact congrArg reference (type.rename_eq_self h)

end JavaType

theorem map_eq_self {α : Type} {rename : α → α} {mentioned : α → List String}
    (hsame : ∀ a, (∀ name ∈ mentioned a, names name = none) → rename a = a) {items : List α}
    (h : ∀ name ∈ items.flatMap mentioned, names name = none) : items.map rename = items := by
  rw [List.map_congr_left fun a ha => hsame a fun name hname =>
    h name (List.mem_flatMap.mpr ⟨a, ha, hname⟩), List.map_id']

namespace TypeParameter

theorem wellFormed_rename (hnames : ∀ old new, names old = some new → IsOuterName new)
    {parameter : TypeParameter} (h : parameter.WellFormed) :
    (parameter.rename names).WellFormed where
  name := h.name
  classBound := by
    intro type htype
    obtain ⟨type, hbound, rfl⟩ := Option.map_eq_some_iff.mp htype
    exact type.wellFormed_rename hnames (h.classBound type hbound)
  interfaceBounds := by
    intro type htype
    obtain ⟨type, hbound, rfl⟩ := List.mem_map.mp htype
    exact type.wellFormed_rename hnames (h.interfaceBounds type hbound)
  bounded := by
    intro hnone hnil
    exact h.bounded (Option.map_eq_none_iff.mp hnone) (List.map_eq_nil_iff.mp hnil)

theorem classNames_rename (parameter : TypeParameter) :
    (parameter.rename names).classNames = parameter.classNames.map names.apply := by
  obtain ⟨name, classBound, bounds⟩ := parameter
  cases classBound <;>
    simp [classNames, rename, List.flatMap_map, List.map_flatMap, RefType.classNames_rename]

theorem rename_eq_self {parameter : TypeParameter}
    (h : ∀ name ∈ parameter.classNames, names name = none) :
    parameter.rename names = parameter := by
  obtain ⟨name, classBound, bounds⟩ := parameter
  obtain ⟨hclass, hbounds⟩ := List.forall_mem_append.mp h
  have hsame : bounds.map (RefType.rename names) = bounds :=
    map_eq_self RefType.rename_eq_self hbounds
  cases classBound with
  | none => rw [rename, Option.map_none, hsame]
  | some bound => rw [rename, Option.map_some, bound.rename_eq_self hclass, hsame]

end TypeParameter

theorem WellFormedParameters.rename
    (hnames : ∀ old new, names old = some new → IsOuterName new)
    {parameters : List TypeParameter} (h : WellFormedParameters parameters) :
    WellFormedParameters (parameters.map (TypeParameter.rename names)) where
  wellFormed := by
    intro parameter hparameter
    obtain ⟨parameter, hmem, rfl⟩ := List.mem_map.mp hparameter
    exact TypeParameter.wellFormed_rename hnames (h.wellFormed parameter hmem)
  named := by
    intro parameter hparameter
    rw [← List.map_tail] at hparameter
    obtain ⟨parameter, hmem, rfl⟩ := List.mem_map.mp hparameter
    exact h.named parameter hmem

namespace SignatureBody

theorem wellFormed_rename (hnames : ∀ old new, names old = some new → IsOuterName new)
    {body : SignatureBody} (h : body.WellFormed) : (body.rename names).WellFormed := by
  cases body with
  | method parameters result throws =>
    obtain ⟨hparameters, hresult, hthrows⟩ := h
    refine ⟨?_, ?_, ?_⟩
    · intro type htype
      obtain ⟨type, hmem, rfl⟩ := List.mem_map.mp htype
      exact JavaType.wellFormed_rename hnames (hparameters type hmem)
    · intro type htype
      obtain ⟨type, hmem, rfl⟩ := Option.map_eq_some_iff.mp htype
      exact JavaType.wellFormed_rename hnames (hresult type hmem)
    · intro type htype
      obtain ⟨type, hmem, rfl⟩ := List.mem_map.mp htype
      exact type.wellFormed_rename hnames (hthrows type hmem)
  | types first rest =>
    refine ⟨first.wellFormed_rename hnames h.1, fun type htype => ?_⟩
    obtain ⟨type, hmem, rfl⟩ := List.mem_map.mp htype
    exact type.wellFormed_rename hnames (h.2 type hmem)

theorem classNames_rename (body : SignatureBody) :
    (body.rename names).classNames = body.classNames.map names.apply := by
  cases body with
  | method parameters result throws =>
    cases result <;>
      simp [classNames, rename, List.flatMap_map, List.map_flatMap, RefType.classNames_rename,
        JavaType.classNames_rename]
  | types first rest =>
    simp [classNames, rename, List.flatMap_map, List.map_flatMap, RefType.classNames_rename]

theorem rename_eq_self {body : SignatureBody}
    (h : ∀ name ∈ body.classNames, names name = none) : body.rename names = body := by
  cases body with
  | method parameters result throws =>
    obtain ⟨hparameters, hrest⟩ := List.forall_mem_append.mp h
    obtain ⟨hresult, hthrows⟩ := List.forall_mem_append.mp hrest
    have hsame : result.map (JavaType.rename names) = result := by
      cases result with
      | none => rfl
      | some type => exact congrArg some (JavaType.rename_eq_self hresult)
    rw [rename, map_eq_self (fun _ => JavaType.rename_eq_self) hparameters, hsame,
      map_eq_self RefType.rename_eq_self hthrows]
  | types first rest =>
    obtain ⟨hfirst, hrest⟩ := List.forall_mem_append.mp h
    rw [rename, first.rename_eq_self hfirst, map_eq_self RefType.rename_eq_self hrest]

end SignatureBody

namespace Signature

theorem WellFormed.rename (hnames : ∀ old new, names old = some new → IsOuterName new)
    {signature : Signature} (h : signature.WellFormed) : (signature.rename names).WellFormed where
  typeParameters := by
    intro parameters hparameters
    obtain ⟨parameters, hsome, rfl⟩ := Option.map_eq_some_iff.mp hparameters
    exact (h.typeParameters parameters hsome).rename hnames
  body := SignatureBody.wellFormed_rename hnames h.body

theorem classNames_rename (signature : Signature) :
    (signature.rename names).classNames = signature.classNames.map names.apply := by
  obtain ⟨parameters, body⟩ := signature
  cases parameters <;>
    simp [classNames, rename, List.flatMap_map, List.map_flatMap, TypeParameter.classNames_rename,
      SignatureBody.classNames_rename]

theorem rename_eq_self {signature : Signature}
    (h : ∀ name ∈ signature.classNames, names name = none) :
    signature.rename names = signature := by
  obtain ⟨parameters, body⟩ := signature
  obtain ⟨hparameters, hbody⟩ := List.forall_mem_append.mp h
  have hsame : parameters.map (List.map (TypeParameter.rename names)) = parameters := by
    cases parameters with
    | none => rfl
    | some parameters =>
      exact congrArg some (map_eq_self (fun _ => TypeParameter.rename_eq_self) hparameters)
  rw [rename, hsame, SignatureBody.rename_eq_self hbody]

end Signature

end Rename

end StaticCompanion
