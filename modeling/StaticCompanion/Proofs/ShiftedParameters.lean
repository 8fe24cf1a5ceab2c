import StaticCompanion.ClassFile.TypeAnnotations
import StaticCompanion.Proofs.CompanionClass
import StaticCompanion.Proofs.ElementValues
import StaticCompanion.Proofs.SharedConstants

/-!
# Annotations of parameters

The static form of an object's method has the object as its parameter 0, and behind it the
parameters of the method. What an attribute lists for a parameter is listed for the same parameter
again. An annotation of the type of a parameter tells the number of the parameter instead, and
keeps it: it is then about the parameter in front, so none of them may be there if all annotations
are to stay with their parameters.
-/
namespace StaticCompanion

open ConstantPool

section Items
variable {α : Type}

/-- What attributes of some sorts hold, each item with the sort of its attribute. -/
def Attribute.itemsOf (sorts : List AttributeName) (items : Bytes → List α) (pool : ConstantPool)
    (attr : Attribute) : List (AttributeName × α) :=
  match (attr.sort pool).toOption.join with
  | some sort => if sort ∈ sorts then (items attr.info).map fun item => (sort, item) else []
  | none => []

/-- The annotations that a payload lists for the parameter with a number. -/
def AnnotationUse.listedFor (i : Nat) (payload : Bytes) : List AnnotationUse :=
  match parametersFormat.decode payload with
  | .ok lists => lists.getD i []
  | .error _ => []

/-- The annotation, if it is one of the type of the parameter with a number, with the way to the
part of the type that it is about. -/
def TypeAnnotationUse.onParameter? (i : Nat) (use : TypeAnnotationUse) :
    Option (List (UInt8 × UInt8) × AnnotationUse) :=
  match use.target with
  | .formalParameter index => if index.toNat = i then some (use.path, use.content) else none
  | _ => none

def TypeAnnotationUse.targetedAt (i : Nat) (payload : Bytes) :
    List (List (UInt8 × UInt8) × AnnotationUse) :=
  match listFormat.decode payload with
  | .ok uses => uses.filterMap (onParameter? i)
  | .error _ => []

namespace Member

def typeSorts : List AttributeName := [.visibleTypeAnnotations, .invisibleTypeAnnotations]

/-- The annotations of a parameter, in the order of the attributes that list them. -/
def parameterAnnotations (method : Member) (pool : ConstantPool) (i : Nat) :
    List (AttributeName × AnnotationUse) :=
  method.attributes.flatMap (Attribute.itemsOf listingSorts (AnnotationUse.listedFor i) pool)

/-- The annotations of the type of a parameter, in the order of the attributes. -/
def parameterTypeAnnotations (method : Member) (pool : ConstantPool) (i : Nat) :
    List (AttributeName × List (UInt8 × UInt8) × AnnotationUse) :=
  method.attributes.flatMap (Attribute.itemsOf typeSorts (TypeAnnotationUse.targetedAt i) pool)

end Member

/-- What is at a place is one place further afterwards, and nothing else is there. -/
def MovesUp (before after : Nat → List α) : Prop :=
  after 0 = [] ∧ ∀ i, after (i + 1) = before i

theorem movesUp_self_iff {items : Nat → List α} : MovesUp items items ↔ ∀ i, items i = [] := by
  constructor
  · rintro ⟨hzero, hsucc⟩ i
    induction i with
    | zero => exact hzero
    | succ i ih => rw [hsucc, ih]
  · intro h
    exact ⟨h 0, fun i => by rw [h, h]⟩

theorem flatMap_of_filterMapM {ε β γ : Type} {step : α → Except ε (Option β)} {as : List α}
    {bs : List β} {old : α → List γ} {new : β → List γ}
    (hstep : ∀ a o, step a = .ok o → o.toList.flatMap new = old a)
    (h : as.filterMapM step = .ok bs) : bs.flatMap new = as.flatMap old := by
  obtain ⟨options, hoptions, rfl⟩ := except_filterMapM_eq_ok.mp h
  induction hoptions with
  | nil => rfl
  | @cons a o as options ho hoptions ih =>
    -- The induction is on the steps, so what is left of the list is put together from its steps.
    have hrest := ih (except_filterMapM_eq_ok.mpr ⟨options, hoptions, rfl⟩)
    have hfirst := hstep a o ho
    cases o with
    | none =>
      rw [List.reduceOption_cons_of_none, List.flatMap_cons, hrest, ← hfirst]
      rfl
    | some b =>
      rw [List.reduceOption_cons_of_some, List.flatMap_cons, List.flatMap_cons, hrest, ← hfirst]
      simp

theorem movesUp_of_filterMapM {ε β γ : Type} {step : α → Except ε (Option β)} {as : List α}
    {bs : List β} {old : Nat → α → List γ} {new : Nat → β → List γ}
    (hstep : ∀ a o, step a = .ok o →
      MovesUp (fun i => old i a) (fun i => o.toList.flatMap (new i)))
    (h : as.filterMapM step = .ok bs) :
    MovesUp (fun i => as.flatMap (old i)) (fun i => bs.flatMap (new i)) := by
  have hzero : bs.flatMap (new 0) = as.flatMap fun _ => [] :=
    flatMap_of_filterMapM (fun a o ho => (hstep a o ho).1) h
  have hnil : (as.flatMap fun _ => ([] : List γ)) = [] :=
    List.flatMap_eq_nil_iff.mpr fun _ _ => rfl
  exact ⟨hzero.trans hnil, fun i => flatMap_of_filterMapM (fun a o ho => (hstep a o ho).2 i) h⟩

namespace Attribute
variable {p q : ConstantPool} {attr : Attribute} {sorts : List AttributeName}
  {items : Bytes → List α}

theorem join_sort_eq_some {sort : AttributeName} :
    (attr.sort p).toOption.join = some sort ↔ attr.sort p = .ok (some sort) := by
  rw [Option.join_eq_some_iff, toOption_eq_some]

theorem itemsOf_of_mem {sort : AttributeName} (hsort : attr.sort p = .ok (some sort))
    (hmem : sort ∈ sorts) :
    attr.itemsOf sorts items p = (items attr.info).map fun item => (sort, item) := by
  unfold itemsOf
  rw [join_sort_eq_some.mpr hsort]
  exact if_pos hmem

theorem itemsOf_of_ne (h : ∀ sort ∈ sorts, attr.sort p ≠ .ok (some sort)) :
    attr.itemsOf sorts items p = [] := by
  unfold itemsOf
  split
  · rename_i sort hsort
    exact if_neg fun hmem => h sort hmem (join_sort_eq_some.mp hsort)
  · rfl

theorem itemsOf_of_notMem {sort : AttributeName} (hsort : attr.sort p = .ok (some sort))
    (hnot : sort ∉ sorts) : attr.itemsOf sorts items p = [] := by
  refine itemsOf_of_ne fun other hmem hother => hnot ?_
  obtain rfl := Option.some.inj (Except.ok.inj (hsort.symm.trans hother))
  exact hmem

theorem itemsOf_congr (h : ∀ sort, attr.sort p = .ok (some sort) ↔ attr.sort q = .ok (some sort)) :
    attr.itemsOf sorts items p = attr.itemsOf sorts items q := by
  have hsame : (attr.sort p).toOption.join = (attr.sort q).toOption.join := by
    ext sort
    rw [join_sort_eq_some, join_sort_eq_some, h]
  unfold itemsOf
  rw [hsame]

/-- A text that is put names no attribute that is looked into, unless it is such a name. -/
theorem sort_of_putText {text : String} {index : UInt16} (hput : putText text p = .ok index q)
    (hother : ∀ name : AttributeName, text ≠ name.text) (sort : AttributeName) :
    attr.sort p = .ok (some sort) ↔ attr.sort q = .ok (some sort) := by
  simp only [sort_eq_some_iff, nameIn_eq_ok, text_eq_ok, entry_eq_ok]
  rcases put_eq_ok.mp hput with ⟨k, -, -, rfl⟩ | ⟨-, -, -, rfl⟩
  · rfl
  · constructor
    · intro hslot
      rw [(extends_append p _).slots (Array.getElem?_eq_some_iff.mp hslot).1, hslot]
    · intro hslot
      rcases of_getElem?_append hslot with hold | ⟨-, hnew⟩
      · exact hold
      · cases hnew
        exact absurd rfl (hother sort)

end Attribute

end Items

section Shift
variable {p : ConstantPool} {attr : Attribute}

theorem movesUp_listedFor {lists : List (List AnnotationUse)} {attr' : Attribute}
    (hdecode : AnnotationUse.parametersFormat.decode attr.info = .ok lists)
    (hencode : attr.encode AnnotationUse.parametersFormat ([] :: lists) = .ok attr') :
    MovesUp (fun i => AnnotationUse.listedFor i attr.info)
      (fun i => AnnotationUse.listedFor i attr'.info) := by
  have hformat : AnnotationUse.parametersFormat.ReadsBack :=
    ((AnnotationUse.exact_format.list 2).list 1).readsBack
  have hdecode' := (Attribute.encode_eq_ok hformat hencode).2
  simp only [MovesUp, AnnotationUse.listedFor, hdecode, hdecode']
  exact ⟨rfl, fun i => rfl⟩

/-- The lists of an attribute move up with their parameters. -/
theorem movesUp_itemsOf_of_shift {shifted : Option Attribute}
    (h : Member.shiftParameters p attr = .ok shifted) :
    MovesUp
      (fun i => attr.itemsOf Member.listingSorts (AnnotationUse.listedFor i) p)
      (fun i => shifted.toList.flatMap
        (Attribute.itemsOf Member.listingSorts (AnnotationUse.listedFor i) p)) := by
  obtain ⟨sort, hsort, ⟨⟨name, hname, rfl⟩, rfl⟩ | ⟨⟨name, hname, rfl⟩, hlists⟩ | ⟨hother, rfl⟩⟩ :=
    Member.shiftParameters_eq_ok h
  · have hnot : ∀ name ∈ Member.droppedSorts, name ∉ Member.listingSorts := by decide
    refine ⟨rfl, fun i => ?_⟩
    exact (Attribute.itemsOf_of_notMem hsort (hnot name hname)).symm
  · obtain ⟨lists, attr', hdecode, hencode, rfl⟩ := hlists
    obtain ⟨hzero, hsucc⟩ := movesUp_listedFor hdecode hencode
    have hsort' : attr'.sort p = .ok (some name) := by
      rw [Attribute.sort_of_name (Attribute.name_of_encode hencode), hsort]
    simp only [MovesUp, Option.toList_some, List.flatMap_singleton,
      Attribute.itemsOf_of_mem hsort hname, Attribute.itemsOf_of_mem hsort' hname, hzero, hsucc]
    exact ⟨rfl, fun _ => trivial⟩
  · have hne : ∀ name ∈ Member.listingSorts, attr.sort p ≠ .ok (some name) := by
      intro name hname hsame
      exact hother name hname (Except.ok.inj (hsort.symm.trans hsame))
    simp only [Option.toList_some, List.flatMap_singleton, Attribute.itemsOf_of_ne hne]
    exact ⟨rfl, fun _ => rfl⟩

/-- Annotations of types stay as they are. -/
theorem itemsOf_typeSorts_of_shift {shifted : Option Attribute} {α : Type}
    {items : Bytes → List α} (h : Member.shiftParameters p attr = .ok shifted) :
    shifted.toList.flatMap (Attribute.itemsOf Member.typeSorts items p) =
      attr.itemsOf Member.typeSorts items p := by
  obtain ⟨sort, hsort, ⟨⟨name, hname, rfl⟩, rfl⟩ | ⟨⟨name, hname, rfl⟩, hlists⟩ | ⟨-, rfl⟩⟩ :=
    Member.shiftParameters_eq_ok h
  · have hnot : ∀ name ∈ Member.droppedSorts, name ∉ Member.typeSorts := by decide
    exact (Attribute.itemsOf_of_notMem hsort (hnot name hname)).symm
  · obtain ⟨lists, attr', -, hencode, rfl⟩ := hlists
    have hnot : ∀ name ∈ Member.listingSorts, name ∉ Member.typeSorts := by decide
    have hsort' : attr'.sort p = .ok (some name) := by
      rw [Attribute.sort_of_name (Attribute.name_of_encode hencode), hsort]
    rw [Option.toList_some, List.flatMap_singleton,
      Attribute.itemsOf_of_notMem hsort (hnot name hname),
      Attribute.itemsOf_of_notMem hsort' (hnot name hname)]
  · rw [Option.toList_some, List.flatMap_singleton]

end Shift

namespace Member
variable {owner : String} {pool left : ConstantPool} {method copy : Member}

/-- The parameters of the copy are those of the method, with the object of `owner` in front. The
descriptor of the copy is read so if `owner` is a name that can stand in a descriptor. -/
def HasReceiverInFront (owner : String) (pool left : ConstantPool) (method copy : Member) : Prop :=
  ∃ text before after, pool.text method.descriptor = .ok text ∧
    MethodDescriptor.ofDescriptor text = .ok before ∧
    after = { before with parameters := .object owner :: before.parameters } ∧
    left.text copy.descriptor = .ok after.descriptor ∧
    (IsObjectName owner → MethodDescriptor.ofDescriptor after.descriptor = .ok after)

/-- All annotations stay with their parameters, which are one place further in the copy. -/
structure ParametersFollow (pool left : ConstantPool) (method copy : Member) : Prop where
  listed : MovesUp (method.parameterAnnotations pool) (copy.parameterAnnotations left)
  typed : MovesUp (method.parameterTypeAnnotations pool) (copy.parameterTypeAnnotations left)

theorem text_ne_of_withReceiver {text descriptor : String}
    (h : withReceiver owner text = .ok descriptor) (name : AttributeName) :
    descriptor ≠ name.text := by
  simp only [withReceiver, except_bind_eq_ok, except_pure_eq_ok] at h
  obtain ⟨before, -, rfl⟩ := h
  have hname : name.text.toList.head? ≠ some '(' := by cases name <;> decide
  intro hsame
  rw [← hsame, MethodDescriptor.descriptor, String.toList_ofList] at hname
  exact hname rfl

theorem hasReceiverInFront_of_withReceiver {text descriptor : String}
    (htext : pool.text method.descriptor = .ok text)
    (hreceiver : withReceiver owner text = .ok descriptor)
    (hnew : left.text copy.descriptor = .ok descriptor) :
    HasReceiverInFront owner pool left method copy := by
  simp only [withReceiver, except_bind_eq_ok, except_pure_eq_ok] at hreceiver
  obtain ⟨before, hbefore, rfl⟩ := hreceiver
  refine ⟨text, before, _, htext, hbefore, rfl, hnew, fun howner => ?_⟩
  refine MethodDescriptor.ofDescriptor_descriptor fun name hname => ?_
  have hnames : name = owner ∨ name ∈ before.classNames := by
    simpa [MethodDescriptor.classNames, FieldType.classNames] using hname
  rcases hnames with rfl | hold
  · exact howner
  · exact MethodDescriptor.isObjectName_of_ofDescriptor hbefore name hold

/-- The lists of annotations move up with the parameters, and the annotations of types are where
they were. So all annotations follow their parameters just if no parameter of the method has an
annotation of its type. -/
theorem parametersFollow_iff_of_toStatic (hfits : pool.Fits) (hinstance : method.isStatic = false)
    (hrun : method.toStatic owner pool = .ok copy left) :
    pool ≤ left ∧ copy.isStatic = true ∧ HasReceiverInFront owner pool left method copy ∧
      MovesUp (method.parameterAnnotations pool) (copy.parameterAnnotations left) ∧
      copy.parameterTypeAnnotations left = method.parameterTypeAnnotations pool ∧
      (ParametersFollow pool left method copy ↔
        ∀ i, method.parameterTypeAnnotations pool i = []) := by
  obtain ⟨key, hkey, -, -, ⟨hstatic, -⟩ | ⟨-, hflags, -, descriptor, hreceiver, hput, hshift⟩⟩ :=
    toStatic_eq_ok hrun
  · rw [hinstance] at hstatic
    cases hstatic
  obtain ⟨-, -, htext⟩ := keyIn_eq_ok.mp hkey
  obtain ⟨hle, -, hnew⟩ := putText_grows descriptor hfits hput
  -- The pool has grown by a descriptor, and an attribute that has it as its name is none of these.
  have hsame {α : Type} (sorts : List AttributeName) (items : Bytes → List α) :
      Attribute.itemsOf sorts items pool = Attribute.itemsOf sorts items left := by
    funext attr
    exact Attribute.itemsOf_congr
      (Attribute.sort_of_putText hput (text_ne_of_withReceiver hreceiver))
  have hlisted : MovesUp (method.parameterAnnotations pool) (copy.parameterAnnotations left) := by
    unfold parameterAnnotations
    simp only [hsame]
    exact movesUp_of_filterMapM (fun attr shifted h => movesUp_itemsOf_of_shift h) hshift
  have htyped : copy.parameterTypeAnnotations left = method.parameterTypeAnnotations pool := by
    funext i
    unfold parameterTypeAnnotations
    rw [hsame]
    exact flatMap_of_filterMapM (fun attr shifted h => itemsOf_typeSorts_of_shift h) hshift
  refine ⟨hle, ?_, hasReceiverInFront_of_withReceiver htext hreceiver hnew, hlisted, htyped, ?_⟩
  · rw [isStatic, hflags]
    exact AccessFlags.has_set _ _
  · rw [← movesUp_self_iff]
    constructor
    · intro hfollow
      have hmoved := hfollow.typed
      rwa [htyped] at hmoved
    · intro hmoved
      refine ⟨hlisted, ?_⟩
      rwa [htyped]

section Notes

def notesPool : ConstantPool :=
  ⟨#[.gap, .entry (.utf8 (.valid "m")), .entry (.utf8 (.valid "(I)V")),
    .entry (.utf8 (.valid "RuntimeVisibleParameterAnnotations")),
    .entry (.utf8 (.valid "RuntimeVisibleTypeAnnotations")), .entry (.utf8 (.valid "Lp/Note;"))]⟩

def movedNotesPool : ConstantPool := notesPool.append (.utf8 (.valid "(Lp/A;I)V"))

/-- A method whose parameter is listed with an annotation. Its result has one of its type. -/
def listedMethod : Member :=
  ⟨⟨0x0002⟩, 1, 2, [⟨3, [1, 0, 1, 0, 5, 0, 0]⟩, ⟨4, [0, 1, 0x14, 0, 0, 5, 0, 0]⟩]⟩

def movedListedMethod : Member :=
  ⟨⟨0x0009⟩, 1, 6, [⟨3, [2, 0, 0, 0, 1, 0, 5, 0, 0]⟩, ⟨4, [0, 1, 0x14, 0, 0, 5, 0, 0]⟩]⟩

theorem parametersFollow_of_listedMethod :
    notesPool.Fits ∧ listedMethod.isStatic = false ∧
      listedMethod.toStatic "p/A" notesPool = .ok movedListedMethod movedNotesPool ∧
      ParametersFollow notesPool movedNotesPool listedMethod movedListedMethod ∧
      movedListedMethod.parameterAnnotations movedNotesPool 1 =
        [(.visibleParameterAnnotations, ⟨5, []⟩)] := by
  have hfits : notesPool.Fits := by decide
  have hinstance : listedMethod.isStatic = false := by decide
  have hrun : listedMethod.toStatic "p/A" notesPool = .ok movedListedMethod movedNotesPool := by
    rw [← runOn_eq_ok, ← toOption_eq_some]
    decide +kernel
  have htyped (i : Nat) : listedMethod.parameterTypeAnnotations notesPool i = [] := rfl
  obtain ⟨-, -, -, hlisted, -, hiff⟩ := parametersFollow_iff_of_toStatic hfits hinstance hrun
  refine ⟨hfits, hinstance, hrun, hiff.mpr htyped, ?_⟩
  rw [hlisted.2 0]
  rfl

/-- A method whose parameter has an annotation of its type. In the static form the annotation is
one of the object's type. -/
def typedMethod : Member := ⟨⟨0x0002⟩, 1, 2, [⟨4, [0, 1, 0x16, 0, 0, 0, 5, 0, 0]⟩]⟩

def movedTypedMethod : Member := ⟨⟨0x0009⟩, 1, 6, [⟨4, [0, 1, 0x16, 0, 0, 0, 5, 0, 0]⟩]⟩

theorem typedMethod_annotates_receiver :
    typedMethod.isStatic = false ∧
      typedMethod.toStatic "p/A" notesPool = .ok movedTypedMethod movedNotesPool ∧
      typedMethod.parameterTypeAnnotations notesPool 0 =
        [(.visibleTypeAnnotations, [], ⟨5, []⟩)] ∧
      movedTypedMethod.parameterTypeAnnotations movedNotesPool 0 =
        [(.visibleTypeAnnotations, [], ⟨5, []⟩)] ∧
      movedTypedMethod.parameterTypeAnnotations movedNotesPool 1 = [] := by
  refine ⟨by decide, ?_, ?_, ?_, ?_⟩
  · rw [← runOn_eq_ok, ← toOption_eq_some]
    decide +kernel
  · rfl
  · rfl
  · rfl

end Notes

end Member

end StaticCompanion
