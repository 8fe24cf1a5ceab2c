import StaticCompanion.Proofs.DescriptorGrammar
import StaticCompanion.Proofs.SuccessiveRenaming

/-!
# Descriptors as signatures

A type without generics is written alike as a descriptor and as a signature, but the two readers
find the ends of class names differently: in a descriptor a name goes on to the semicolon, in a
signature a bracket or a dot ends it as well. So a descriptor that is renamed as a signature becomes
what it becomes as a descriptor exactly if no name in it holds one of these two marks. A primitive
type by itself is no signature at all.
-/
namespace StaticCompanion

/-- A name without the marks that end it in a signature before its semicolon. -/
def IsUnmarked (name : String) : Prop := '<' ∉ name.toList ∧ '.' ∉ name.toList

theorem isOuterName_iff {name : String} :
    IsOuterName name ↔ IsObjectName name ∧ IsUnmarked name := by
  have hends (c : Char) : endsClassName c = false ↔ c ≠ '<' ∧ c ≠ '.' ∧ c ≠ ';' := by
    simp [endsClassName, and_assoc]
  constructor
  · intro h
    have hplain : ∀ c ∈ name.toList, c ≠ '<' ∧ c ≠ '.' ∧ c ≠ ';' :=
      fun c hc => (hends c).mp (h.2 c hc)
    refine ⟨⟨h.1, ?_⟩, ?_, ?_⟩
    · intro hmem
      exact (hplain ';' hmem).2.2 rfl
    · intro hmem
      exact (hplain '<' hmem).1 rfl
    · intro hmem
      exact (hplain '.' hmem).2.1 rfl
  · intro h
    refine ⟨h.1.1, fun c hc => (hends c).mpr ⟨?_, ?_, ?_⟩⟩
    · intro hmark
      exact h.2.1 (hmark ▸ hc)
    · intro hmark
      exact h.2.2 (hmark ▸ hc)
    · intro hmark
      exact h.1.2 (hmark ▸ hc)

/-! ### The trees of descriptors as trees of signatures -/

def JavaType.arrayOf : JavaType → RefType
  | primitive type => .primitiveArray type
  | reference type => .array type

namespace FieldType
variable {names : Renaming}

def toJavaType : FieldType → JavaType
  | primitive type => .primitive type
  | object name => .reference (.object name .done)
  | array element => .reference element.toJavaType.arrayOf

theorem chars_toJavaType (type : FieldType) : type.toJavaType.chars = type.chars := by
  induction type with
  | primitive type => rfl
  | object name => rfl
  | array element ih =>
    have harray : element.toJavaType.arrayOf.chars = '[' :: element.toJavaType.chars := by
      cases element.toJavaType <;> rfl
    rw [toJavaType, JavaType.chars, harray, ih, chars]

theorem rename_toJavaType (type : FieldType) :
    type.toJavaType.rename names = (type.rename names).toJavaType := by
  induction type with
  | primitive type => rfl
  | object name => rfl
  | array element ih =>
    have harray : element.toJavaType.arrayOf.rename names =
        (element.toJavaType.rename names).arrayOf := by
      cases element.toJavaType <;> rfl
    rw [toJavaType, JavaType.rename, harray, ih, rename, toJavaType]

theorem wellFormed_toJavaType {type : FieldType} (h : ∀ name ∈ type.classNames, IsOuterName name) :
    type.toJavaType.WellFormed := by
  induction type with
  | primitive type => trivial
  | object name => exact ⟨h name List.mem_cons_self, trivial⟩
  | array element ih =>
    have helement := ih h
    cases htype : element.toJavaType with
    | primitive type =>
      rw [toJavaType, htype]
      trivial
    | reference type =>
      rw [htype] at helement
      rw [toJavaType, htype]
      exact helement

/-- The type as the signature of a field, which has to be a class or an array. -/
def toSignature? (type : FieldType) : Option Signature :=
  match type.toJavaType with
  | .primitive _ => none
  | .reference type => some ⟨none, .types type []⟩

variable {type : FieldType} {tree : Signature}

theorem toSignature?_eq_some : type.toSignature? = some tree ↔
    ∃ reference, type.toJavaType = .reference reference ∧ tree = ⟨none, .types reference []⟩ := by
  unfold toSignature?
  cases type.toJavaType <;> simp [eq_comm]

theorem exists_toSignature? (h : ∀ primitive, type ≠ .primitive primitive) :
    ∃ tree, type.toSignature? = some tree := by
  cases type with
  | primitive primitive => exact absurd rfl (h primitive)
  | object name => exact ⟨_, rfl⟩
  | array element => exact ⟨_, rfl⟩

theorem render_toSignature? (h : type.toSignature? = some tree) :
    tree.render = type.descriptor := by
  obtain ⟨reference, htype, rfl⟩ := toSignature?_eq_some.mp h
  have hchars := type.chars_toJavaType
  rw [htype] at hchars
  simp [Signature.render, Signature.chars, SignatureBody.chars, descriptor, ← hchars,
    JavaType.chars]

theorem rename_toSignature? (h : type.toSignature? = some tree) :
    (type.rename names).toSignature? = some (tree.rename names) := by
  obtain ⟨reference, htype, rfl⟩ := toSignature?_eq_some.mp h
  have hrename : type.toJavaType.rename names = (type.rename names).toJavaType :=
    type.rename_toJavaType
  rw [htype] at hrename
  exact toSignature?_eq_some.mpr ⟨reference.rename names, hrename.symm, rfl⟩

theorem wellFormed_toSignature? (hnames : ∀ name ∈ type.classNames, IsOuterName name)
    (h : type.toSignature? = some tree) : tree.WellFormed := by
  obtain ⟨reference, htype, rfl⟩ := toSignature?_eq_some.mp h
  have hwell := wellFormed_toJavaType hnames
  rw [htype] at hwell
  exact ⟨by simp, hwell, by simp⟩

theorem renameText_descriptor (hnames : ∀ name ∈ type.classNames, IsOuterName name)
    (htype : ∀ primitive, type ≠ .primitive primitive) :
    Signature.renameText names type.descriptor = .ok (type.rename names).descriptor := by
  obtain ⟨tree, htree⟩ := exists_toSignature? htype
  have hwell := wellFormed_toSignature? hnames htree
  calc
    Signature.renameText names type.descriptor = Signature.renameText names tree.render := by
      rw [render_toSignature? htree]
    _ = .ok (tree.rename names).render := Signature.renameText_render hwell names
    _ = .ok (type.rename names).descriptor := by
      rw [render_toSignature? (rename_toSignature? htree)]

end FieldType

def ReturnType.toJavaType? : ReturnType → Option JavaType
  | void => none
  | value type => some type.toJavaType

namespace MethodDescriptor
variable {names : Renaming} {method : MethodDescriptor}

def toSignature (method : MethodDescriptor) : Signature where
  typeParameters := none
  body := .method (method.parameters.map FieldType.toJavaType) method.result.toJavaType? []

theorem render_toSignature (method : MethodDescriptor) :
    method.toSignature.render = method.descriptor := by
  have hresult : method.result.toJavaType?.elim ['V'] JavaType.chars = method.result.chars := by
    cases method.result with
    | void => rfl
    | value type => exact type.chars_toJavaType
  have hparameters : (method.parameters.map FieldType.toJavaType).flatMap JavaType.chars =
      method.parameters.flatMap FieldType.chars := by
    simp only [List.flatMap_map, FieldType.chars_toJavaType]
  simp [Signature.render, Signature.chars, SignatureBody.chars, toSignature, descriptor, chars,
    hresult, hparameters]

theorem rename_toSignature (method : MethodDescriptor) :
    method.toSignature.rename names = (method.rename names).toSignature := by
  have hresult : method.result.toJavaType?.map (JavaType.rename names) =
      (method.result.rename names).toJavaType? := by
    cases method.result with
    | void => rfl
    | value type => exact congrArg some type.rename_toJavaType
  have hparameters : (method.parameters.map FieldType.toJavaType).map (JavaType.rename names) =
      (method.parameters.map (FieldType.rename names)).map FieldType.toJavaType := by
    simp only [List.map_map, Function.comp_def, FieldType.rename_toJavaType]
  rw [toSignature, Signature.rename, SignatureBody.rename, hresult, hparameters]
  rfl

theorem wellFormed_toSignature (hnames : ∀ name ∈ method.classNames, IsOuterName name) :
    method.toSignature.WellFormed := by
  have hparts := List.forall_mem_append.mp hnames
  refine ⟨by simp [toSignature], ?_, ?_, by simp⟩
  · intro type htype
    obtain ⟨parameter, hparameter, rfl⟩ := List.mem_map.mp htype
    exact FieldType.wellFormed_toJavaType fun name hname =>
      hparts.1 name (List.mem_flatMap.mpr ⟨parameter, hparameter, hname⟩)
  · intro type htype
    cases hresult : method.result with
    | void =>
      rw [hresult] at htype
      cases htype
    | value value =>
      have hvalue := hparts.2
      rw [hresult] at htype hvalue
      cases htype
      exact FieldType.wellFormed_toJavaType hvalue

theorem renameText_descriptor (hnames : ∀ name ∈ method.classNames, IsOuterName name) :
    Signature.renameText names method.descriptor = .ok (method.rename names).descriptor := by
  have hwell := wellFormed_toSignature hnames
  calc
    Signature.renameText names method.descriptor =
        Signature.renameText names method.toSignature.render := by rw [render_toSignature]
    _ = .ok (method.toSignature.rename names).render := Signature.renameText_render hwell names
    _ = .ok (method.rename names).descriptor := by rw [rename_toSignature, render_toSignature]

end MethodDescriptor

/-! ### Names with marks -/

mutual

theorem RefType.isOuterName_of_wellFormed : ∀ type : RefType, type.WellFormed →
    ∀ name ∈ type.classNames, IsOuterName name
  | .typeVariable _, _ => by simp [RefType.classNames]
  | .primitiveArray _, _ => by simp [RefType.classNames]
  | .array element, h => RefType.isOuterName_of_wellFormed element h
  | .object _ suffix, h =>
    List.forall_mem_cons.mpr ⟨h.1, ClassSuffix.isOuterName_of_wellFormed suffix h.2⟩

theorem ClassSuffix.isOuterName_of_wellFormed : ∀ suffix : ClassSuffix, suffix.WellFormed →
    ∀ name ∈ suffix.classNames, IsOuterName name
  | .done, _ => by simp [ClassSuffix.classNames]
  | .member _ rest, h => ClassSuffix.isOuterName_of_wellFormed rest h.2
  | .arguments list rest, h => List.forall_mem_append.mpr
    ⟨TypeArguments.isOuterName_of_wellFormed list h.1,
      ClassSuffix.isOuterName_of_wellFormed rest h.2⟩

theorem TypeArguments.isOuterName_of_wellFormed : ∀ list : TypeArguments, list.WellFormed →
    ∀ name ∈ list.classNames, IsOuterName name
  | .done, _ => by simp [TypeArguments.classNames]
  | .wildcard rest, h => TypeArguments.isOuterName_of_wellFormed rest h
  | .type _ type rest, h => List.forall_mem_append.mpr
    ⟨RefType.isOuterName_of_wellFormed type h.1,
      TypeArguments.isOuterName_of_wellFormed rest h.2⟩

end

theorem JavaType.isOuterName_of_wellFormed {type : JavaType} (h : type.WellFormed) :
    ∀ name ∈ type.classNames, IsOuterName name := by
  cases type with
  | primitive type => simp [classNames]
  | reference type => exact type.isOuterName_of_wellFormed h

theorem isOuterName_of_row {α : Type} {wellFormed : α → Prop} {classNames : α → List String}
    (hpart : ∀ a, wellFormed a → ∀ name ∈ classNames a, IsOuterName name) {parts : List α}
    (h : ∀ a ∈ parts, wellFormed a) : ∀ name ∈ parts.flatMap classNames, IsOuterName name := by
  intro name hname
  obtain ⟨a, ha, hname⟩ := List.mem_flatMap.mp hname
  exact hpart a (h a ha) name hname

theorem TypeParameter.isOuterName_of_wellFormed {parameter : TypeParameter}
    (h : parameter.WellFormed) : ∀ name ∈ parameter.classNames, IsOuterName name := by
  have hbounds : ∀ name ∈ parameter.interfaceBounds.flatMap RefType.classNames,
      IsOuterName name :=
    isOuterName_of_row RefType.isOuterName_of_wellFormed h.interfaceBounds
  refine List.forall_mem_append.mpr ⟨?_, hbounds⟩
  cases hbound : parameter.classBound with
  | none => simp
  | some bound => exact bound.isOuterName_of_wellFormed (h.classBound bound hbound)

theorem SignatureBody.isOuterName_of_wellFormed {body : SignatureBody} (h : body.WellFormed) :
    ∀ name ∈ body.classNames, IsOuterName name := by
  cases body with
  | method parameters result throws =>
    have hparameters : ∀ name ∈ parameters.flatMap JavaType.classNames, IsOuterName name :=
      isOuterName_of_row (fun _ => JavaType.isOuterName_of_wellFormed) h.1
    have hthrows : ∀ name ∈ throws.flatMap RefType.classNames, IsOuterName name :=
      isOuterName_of_row RefType.isOuterName_of_wellFormed h.2.2
    refine List.forall_mem_append.mpr ⟨hparameters, List.forall_mem_append.mpr ⟨?_, hthrows⟩⟩
    cases result with
    | none => simp
    | some type => exact JavaType.isOuterName_of_wellFormed (h.2.1 type rfl)
  | types first rest =>
    exact List.forall_mem_append.mpr ⟨first.isOuterName_of_wellFormed h.1,
      isOuterName_of_row RefType.isOuterName_of_wellFormed h.2⟩

namespace Signature

theorem isOuterName_of_wellFormed {signature : Signature} (h : signature.WellFormed) :
    ∀ name ∈ signature.classNames, IsOuterName name := by
  refine List.forall_mem_append.mpr ⟨?_, SignatureBody.isOuterName_of_wellFormed h.body⟩
  cases hparameters : signature.typeParameters with
  | none => simp
  | some parameters =>
    exact isOuterName_of_row (fun _ => TypeParameter.isOuterName_of_wellFormed)
      (h.typeParameters parameters hparameters).wellFormed

theorem renameText_of_not_isOuterName {name image text renamed : String}
    (hname : ¬ IsOuterName name) (h : renameText (renamingOf name image) text = .ok renamed) :
    renamed = text := by
  obtain ⟨tree, htree, rfl⟩ := renameText_eq_ok.mp h
  have houter := isOuterName_of_wellFormed (faithful_parse htree).2
  have hsame : tree.rename (renamingOf name image) = tree := by
    apply rename_eq_self
    intro other hother
    have hne : other ≠ name := by
      intro heq
      exact hname (heq ▸ houter other hother)
    exact if_neg hne
  rw [hsame, render_of_parse htree]

end Signature

/-- If a text is renamed as a signature as it is read, renamed and written, whatever the renaming,
then it mentions no name with a mark. -/
theorem isUnmarked_of_renameText {α : Type} {read : String → Except InvalidDescriptor α}
    {write : α → String} {classNames : α → List String} {rename : Renaming → α → α}
    (hreads : ∀ a, (∀ name ∈ classNames a, IsObjectName name) → read (write a) = .ok a)
    (hrename : ∀ names a, classNames (rename names a) = (classNames a).map names.apply)
    {text : String} {a : α} (hread : read text = .ok a)
    (hobject : ∀ name ∈ classNames a, IsObjectName name)
    (hsame : ∀ names, Signature.renameText names text = .ok (write (rename names a))) :
    ∀ name ∈ classNames a, IsUnmarked name := by
  intro name hname
  by_contra hmarked
  have hnot : ¬ IsOuterName name := fun h => hmarked (isOuterName_iff.mp h).2
  have hne : name ≠ "A" := by
    rintro rfl
    exact hnot (by decide)
  -- Replaced by a plain name, the marked one stays in the signature but goes from the descriptor.
  have htext : write (rename (renamingOf name "A") a) = text :=
    Signature.renameText_of_not_isOuterName hnot (hsame (renamingOf name "A"))
  have happly (other : String) : (renamingOf name "A").apply other =
      if other = name then "A" else other := by
    unfold Renaming.apply renamingOf
    split_ifs <;> rfl
  have hplain : ∀ other ∈ classNames (rename (renamingOf name "A") a), IsObjectName other := by
    rw [hrename]
    intro other hother
    obtain ⟨old, hold, rfl⟩ := List.mem_map.mp hother
    rw [happly]
    split_ifs
    · exact ⟨by decide, by decide⟩
    · exact hobject old hold
  have hagain := hreads _ hplain
  rw [htext] at hagain
  have hunchanged : rename (renamingOf name "A") a = a :=
    Except.ok.inj (hagain.symm.trans hread)
  have hnames : (classNames a).map (renamingOf name "A").apply = (classNames a).map id := by
    rw [← hrename, hunchanged, List.map_id]
  have hfixed := List.map_inj_left.mp hnames name hname
  rw [happly, if_pos rfl] at hfixed
  exact hne hfixed.symm

/-- Every descriptor is read. Renamed as a signature it becomes what it becomes as a descriptor,
whatever the renaming, exactly if none of its class names holds a mark and it is not a primitive
type by itself. -/
theorem renameText_asDescriptor (text : String) :
    (IsMethodDescriptor text.toList → ∃ method, MethodDescriptor.ofDescriptor text = .ok method ∧
      ((∀ names, Signature.renameText names text = .ok (method.rename names).descriptor) ↔
        ∀ name ∈ method.classNames, IsUnmarked name)) ∧
    (IsFieldDescriptor text.toList → ∃ type, FieldType.ofDescriptor text = .ok type ∧
      ((∀ names, Signature.renameText names text = .ok (type.rename names).descriptor) ↔
        (∀ primitive, type ≠ .primitive primitive) ∧
          ∀ name ∈ type.classNames, IsUnmarked name)) := by
  constructor
  · intro h
    obtain ⟨method, hnames, hchars⟩ := MethodDescriptor.isMethodDescriptor_iff.mp h
    have htext : method.descriptor = text := by
      rw [MethodDescriptor.descriptor, hchars, String.ofList_toList]
    have hread := MethodDescriptor.ofDescriptor_descriptor hnames
    rw [htext] at hread
    refine ⟨method, hread, ?_, ?_⟩
    · exact isUnmarked_of_renameText (fun _ => MethodDescriptor.ofDescriptor_descriptor)
        (fun _ => MethodDescriptor.classNames_rename) hread hnames
    · intro hunmarked names
      rw [← htext]
      exact MethodDescriptor.renameText_descriptor fun name hname =>
        isOuterName_iff.mpr ⟨hnames name hname, hunmarked name hname⟩
  · intro h
    obtain ⟨type, hnames, hchars⟩ := FieldType.isFieldDescriptor_iff.mp h
    have htext : type.descriptor = text := by
      rw [FieldType.descriptor, hchars, String.ofList_toList]
    have hread := FieldType.ofDescriptor_descriptor hnames
    rw [htext] at hread
    refine ⟨type, hread, ?_, ?_⟩
    · intro hsame
      refine ⟨?_, isUnmarked_of_renameText (fun _ => FieldType.ofDescriptor_descriptor)
        (fun _ => FieldType.classNames_rename) hread hnames hsame⟩
      rintro primitive rfl
      have hnone := hsame fun _ => none
      rw [← htext] at hnone
      cases primitive <;> cases hnone
    · rintro ⟨htype, hunmarked⟩ names
      rw [← htext]
      exact FieldType.renameText_descriptor (fun name hname =>
        isOuterName_iff.mpr ⟨hnames name hname, hunmarked name hname⟩) htype

section Odd

def oddMethod : MethodDescriptor where
  parameters := [.object ")V", .array (.array (.primitive .int))]
  result := .value (.array (.object "^T:"))

/-- Names with other marks of signatures are renamed alike, a name with type arguments is not. -/
theorem renameText_asDescriptor_of_oddNames :
    IsMethodDescriptor "(L)V;[[I)[L^T:;".toList ∧ IsFieldDescriptor "[Lp/A<*>;".toList ∧
      (∀ names, Signature.renameText names "(L)V;[[I)[L^T:;" =
        .ok (oddMethod.rename names).descriptor) ∧
      ∃ names, Signature.renameText names "[Lp/A<*>;" ≠
        .ok ((FieldType.array (.object "p/A<*>")).rename names).descriptor := by
  have hmethod : IsMethodDescriptor "(L)V;[[I)[L^T:;".toList := by
    refine MethodDescriptor.isMethodDescriptor_iff.mpr ⟨oddMethod, ?_, by decide⟩
    simp [oddMethod, MethodDescriptor.classNames, FieldType.classNames, ReturnType.classNames,
      IsObjectName]
  have hfield : IsFieldDescriptor "[Lp/A<*>;".toList := by
    refine FieldType.isFieldDescriptor_iff.mpr ⟨.array (.object "p/A<*>"), ?_, by decide⟩
    simp [FieldType.classNames, IsObjectName]
  refine ⟨hmethod, hfield, ?_, ?_⟩
  · obtain ⟨method, hread, hiff⟩ := (renameText_asDescriptor _).1 hmethod
    have hodd : MethodDescriptor.ofDescriptor "(L)V;[[I)[L^T:;" = .ok oddMethod := by
      decide +kernel
    obtain rfl := Except.ok.inj (hodd.symm.trans hread)
    apply hiff.mpr
    simp [oddMethod, MethodDescriptor.classNames, FieldType.classNames, ReturnType.classNames,
      IsUnmarked]
  · obtain ⟨type, hread, hiff⟩ := (renameText_asDescriptor _).2 hfield
    have hodd : FieldType.ofDescriptor "[Lp/A<*>;" = .ok (.array (.object "p/A<*>")) := by
      decide +kernel
    obtain rfl := Except.ok.inj (hodd.symm.trans hread)
    by_contra hall
    have hsame := hiff.mp fun names => not_not.mp fun hne => hall ⟨names, hne⟩
    have hunmarked : IsUnmarked "p/A<*>" := hsame.2 "p/A<*>" List.mem_cons_self
    exact hunmarked.1 (by decide)

end Odd

end StaticCompanion
