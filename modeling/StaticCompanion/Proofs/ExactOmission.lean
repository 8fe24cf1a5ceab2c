import StaticCompanion.Proofs.Frame
import StaticCompanion.Proofs.SuccessiveOmission

/-!
# What omitting annotations leaves

Omitting annotations takes the annotations of the omitted types out of their lists and does nothing
else. Whether an attribute goes when its lists become empty is told by its sort: a list of
annotations goes if nothing is left in it, the lists of the parameters go only if something was
taken out. All treatments of an attribute filter the value that its payload spells, so what they
leave is told once for all of them.
-/
namespace StaticCompanion

namespace Omission

/-- The annotation is of an omitted type. -/
def isOmitted (omitted : NameSet) (pool : ConstantPool) (use : AnnotationUse) : Bool :=
  (use.descriptorIn pool).toOption.any omitted.contains

/-- The items whose annotations are not omitted, in their order. -/
def unomitted {α : Type} (omitted : NameSet) (pool : ConstantPool) (use : α → AnnotationUse)
    (items : List α) : List α :=
  items.filter fun item => !isOmitted omitted pool (use item)

/-- The attribute spells a value of which another one is left. It goes under this condition only,
and it keeps its name, and its bytes if nothing has been taken out of the value. -/
structure LeftAs {α : Type} (format : Format α) (value kept : α) (gone : Prop) (attr : Attribute)
    (left : Option Attribute) : Prop where
  decode : format.decode attr.info = .ok value
  gone : left = none ↔ gone
  kept : ∀ attr' ∈ left, attr'.name = attr.name ∧ format.decode attr'.info = .ok kept ∧
    (kept = value → attr' = attr)

/-- A list of annotations is left without the omitted ones, and goes if nothing is left in it. -/
def ListLeft {α : Type} (omitted : NameSet) (pool : ConstantPool) (format : Format (List α))
    (use : α → AnnotationUse) : AttributePass := fun attr left =>
  ∃ items, LeftAs format items (unomitted omitted pool use items)
    (unomitted omitted pool use items = []) attr left

/-- Each parameter is left without its omitted annotations. The attribute goes if there was an
omitted one and no parameter has an annotation left. -/
def ParametersLeft (omitted : NameSet) (pool : ConstantPool) : AttributePass := fun attr left =>
  ∃ lists, LeftAs AnnotationUse.parametersFormat lists (lists.map (unomitted omitted pool id))
    ((∃ uses ∈ lists, ∃ use ∈ uses, isOmitted omitted pool use) ∧
      ∀ uses ∈ lists, unomitted omitted pool id uses = []) attr left

/-- What is left of an attribute that holds no code. -/
structure PlainLeft (omitted : NameSet) (pool : ConstantPool) (place : Place) (attr : Attribute)
    (left : Option Attribute) : Prop where
  annotations : place ≠ .code → ∀ sort ∈ [AttributeName.visibleAnnotations, .invisibleAnnotations],
    attr.nameIn pool = .ok sort.text →
      ListLeft omitted pool AnnotationUse.listFormat id attr left
  typeAnnotations :
    ∀ sort ∈ [AttributeName.visibleTypeAnnotations, .invisibleTypeAnnotations],
      attr.nameIn pool = .ok sort.text →
        ListLeft omitted pool TypeAnnotationUse.listFormat TypeAnnotationUse.content attr left
  parameters : place = .method →
    ∀ sort ∈ [AttributeName.visibleParameterAnnotations, .invisibleParameterAnnotations],
      attr.nameIn pool = .ok sort.text → ParametersLeft omitted pool attr left
  parameterNames : place = .method →
    attr.nameIn pool = .ok AttributeName.methodParameters.text → left = none
  others : ∃ sort, attr.sort pool = .ok sort ∧
    (sort.any place.thins = false → left = some attr)

/-- Code never goes, and only its attributes are left as those of code are. -/
def CodeLeft (omitted : NameSet) (pool : ConstantPool) : AttributePass := fun attr left =>
  ∃ code attributes, LeftAs Code.format code { code with attributes } False attr left ∧
    AttributePass.OnList (PlainLeft omitted pool .code) code.attributes attributes

/-- What is left of an attribute of a class, of a field or of a method. -/
structure Left (omitted : NameSet) (pool : ConstantPool) (place : Place) (attr : Attribute)
    (left : Option Attribute) : Prop where
  code : place = .method → attr.nameIn pool = .ok AttributeName.code.text →
    CodeLeft omitted pool attr left
  plain : ¬ (place = .method ∧ attr.nameIn pool = .ok AttributeName.code.text) →
    PlainLeft omitted pool place attr left

/-- A member keeps its header, and its attributes are left in their order. -/
structure MemberLeft (omitted : NameSet) (pool : ConstantPool) (place : Place)
    (member member' : Member) : Prop where
  header : member' = { member with attributes := member'.attributes }
  attributes : AttributePass.OnList (Left omitted pool place) member.attributes member'.attributes

section Lists
variable {α : Type} {omitted : NameSet} {pool : ConstantPool} {use : α → AnnotationUse}

theorem isOmitted_of_descriptor {item : AnnotationUse} {descriptor : String}
    (h : item.descriptorIn pool = .ok descriptor) :
    isOmitted omitted pool item = true ↔ descriptor ∈ omitted := by
  simp [isOmitted, h, Except.toOption]

theorem keep_eq_unomitted {items kept : List α} (h : keep omitted pool use items = .ok kept) :
    kept = unomitted omitted pool use items := by
  rw [keep_eq_filterMapM] at h
  have hsame (item : α) (o : Option α) (hkept : keepOne pool use omitted item = .ok o) :
      Option.guard (fun item => !isOmitted omitted pool (use item)) item = o := by
    obtain ⟨descriptor, hdescriptor, rfl⟩ := keepOne_eq_ok.mp hkept
    have homitted : isOmitted omitted pool (use item) = true ↔ descriptor ∈ omitted :=
      isOmitted_of_descriptor hdescriptor
    by_cases hmem : descriptor ∈ omitted
    · simp [Option.guard, hmem, homitted.mpr hmem]
    · simp [Option.guard, hmem, mt homitted.mp hmem]
  rw [eq_filterMap_of_filterMapM hsame h, List.filterMap_eq_filter]
  rfl

theorem eq_map_unomitted {lists kept : List (List AnnotationUse)}
    (h : lists.mapM (keep omitted pool id) = .ok kept) :
    kept = lists.map (unomitted omitted pool id) := by
  have hrows := except_mapM_eq_ok.mp h
  clear h
  induction hrows with
  | nil => rfl
  | cons hkeep _ ih => rw [keep_eq_unomitted hkeep, ih, List.map_cons]

theorem exists_isOmitted_iff {lists : List (List AnnotationUse)}
    (hnone : ∀ uses ∈ lists, unomitted omitted pool id uses = []) :
    (∃ uses ∈ lists, ∃ use ∈ uses, isOmitted omitted pool use = true) ↔
      ¬ lists.all List.isEmpty := by
  simp only [List.all_eq_true, List.isEmpty_iff, not_forall]
  constructor
  · rintro ⟨uses, huses, use, huse, -⟩
    exact ⟨uses, huses, List.ne_nil_of_mem huse⟩
  · rintro ⟨uses, huses, hsome⟩
    obtain ⟨use, huse⟩ := List.exists_mem_of_ne_nil _ hsome
    have hleft := List.filter_eq_nil_iff.mp (hnone uses huses) use huse
    exact ⟨uses, huses, use, huse, by simpa using hleft⟩

end Lists

section Treatments
variable {omitted : NameSet} {pool : ConstantPool} {place : Place} {attr : Attribute}
  {left : Option Attribute}

/-- A payload whose value is filtered spells what the filter keeps of the value. -/
theorem leftAs_of_recode {α : Type} {fits : α → Prop} {format : Format α}
    (hformat : format.Exact fits) {filter : NameSet → α → Except RelocationFault α}
    {gone : α → α → Prop} [DecidableRel gone]
    (h : recode format filter gone omitted attr = .ok left) :
    ∃ value kept, filter omitted value = .ok kept ∧
      LeftAs format value kept (gone value kept) attr left := by
  simp only [recode, except_bind_eq_ok, lift_class_eq_ok] at h
  obtain ⟨value, hdecode, kept, hfilter, h⟩ := h
  refine ⟨value, kept, hfilter, hdecode, ?_, ?_⟩
  · split at h
    · rename_i hgone
      exact iff_of_true (except_pure_eq_ok.mp h).symm hgone
    · rename_i hstays
      simp only [except_bind_eq_ok, except_pure_eq_ok] at h
      obtain ⟨attr', -, rfl⟩ := h
      exact iff_of_false (Option.some_ne_none _) hstays
  · rintro attr' rfl
    split at h
    · cases except_pure_eq_ok.mp h
    · simp only [except_bind_eq_ok, lift_write_eq_ok, except_pure_eq_ok, Option.some.injEq] at h
      obtain ⟨_, hencode, rfl⟩ := h
      obtain ⟨hname, hdecode'⟩ := Attribute.encode_eq_ok hformat.readsBack hencode
      refine ⟨hname, hdecode', ?_⟩
      rintro rfl
      exact Except.ok.inj (hencode.symm.trans (encode_decoded hformat hdecode))

theorem LeftAs.congr {α : Type} {format : Format α} {value kept : α} {gone gone' : Prop}
    (h : LeftAs format value kept gone attr left) (hgone : gone ↔ gone') :
    LeftAs format value kept gone' attr left :=
  ⟨h.decode, h.gone.trans hgone, h.kept⟩

theorem listLeft_of_filterList {α : Type} {fits : List α → Prop} {format : Format (List α)}
    {use : α → AnnotationUse} (hformat : format.Exact fits)
    (h : filterList omitted pool format use attr = .ok left) :
    ListLeft omitted pool format use attr left := by
  have hrecode : filterList omitted pool format use attr =
      recode format (fun omitted items => liftM (keep omitted pool use items))
        (fun _ kept => kept.isEmpty) omitted attr :=
    congrFun (congrFun (filterList_eq_recode hformat) omitted) attr
  rw [hrecode] at h
  obtain ⟨items, kept, hkeep, hleft⟩ := leftAs_of_recode hformat h
  obtain rfl := keep_eq_unomitted (lift_class_eq_ok.mp hkeep)
  exact ⟨items, hleft.congr List.isEmpty_iff⟩

theorem parametersLeft_of_filterParameters (h : filterParameters omitted pool attr = .ok left) :
    ParametersLeft omitted pool attr left := by
  have hrecode : filterParameters omitted pool attr = recode AnnotationUse.parametersFormat
      (fun omitted lists => liftM (lists.mapM (keep omitted pool id) : Except ClassFault _))
      (fun lists kept => kept.all List.isEmpty ∧ ¬ lists.all List.isEmpty) omitted attr :=
    congrFun (congrFun filterParameters_eq_recode omitted) attr
  rw [hrecode] at h
  obtain ⟨lists, kept, hkeep, hleft⟩ := leftAs_of_recode exact_parameters h
  obtain rfl := eq_map_unomitted (lift_class_eq_ok.mp hkeep)
  have hnone : (lists.map (unomitted omitted pool id)).all List.isEmpty = true ↔
      ∀ uses ∈ lists, unomitted omitted pool id uses = [] := by
    simp only [List.all_eq_true, List.mem_map, List.isEmpty_iff, forall_exists_index, and_imp,
      forall_apply_eq_imp_iff₂]
  refine ⟨lists, hleft.congr ?_⟩
  rw [hnone, and_comm]
  exact and_congr_left fun h => (exists_isOmitted_iff h).symm

theorem codeLeft_of_filterCode {attr' : Attribute} (h : filterCode omitted pool attr = .ok attr')
    (hplain : ∀ {nested : Attribute} {left : Option Attribute},
      filterPlain omitted pool .code nested = .ok left → PlainLeft omitted pool .code nested left) :
    CodeLeft omitted pool attr (some attr') := by
  have hrecode : some <$> filterCode omitted pool attr =
      recode Code.format (keepInCode pool) (fun _ _ => False) omitted attr :=
    congrFun (congrFun filterCode_eq_recode omitted) attr
  obtain ⟨code, kept, hkeep, hleft⟩ := leftAs_of_recode Code.exact_format
    (hrecode.symm.trans (except_map_eq_ok.mpr ⟨attr', h, rfl⟩))
  obtain ⟨attributes, hattributes, rfl⟩ := except_map_eq_ok.mp hkeep
  obtain ⟨options, hoptions, rfl⟩ := except_filterMapM_eq_ok.mp hattributes
  exact ⟨code, _, hleft, options, hoptions.imp fun _ _ hfilter => hplain hfilter, rfl⟩

theorem plainLeft_of_filterPlain (h : filterPlain omitted pool place attr = .ok left) :
    PlainLeft omitted pool place attr left := by
  obtain ⟨sort, hsort, hframed⟩ := framed_of_filterPlain h
  simp only [filterPlain, except_bind_eq_ok, lift_class_eq_ok] at h
  obtain ⟨_, hsame, h⟩ := h
  obtain rfl := Except.ok.inj (hsort.symm.trans hsame)
  have hnamed {name : AttributeName} (hname : attr.nameIn pool = .ok name.text) :
      sort = some name :=
    Except.ok.inj (hsort.symm.trans (Attribute.sort_eq_some_iff.mpr hname))
  refine ⟨fun hplace name hmem hname => ?_, fun name hmem hname => ?_,
    fun hplace name hmem hname => ?_, fun hplace hname => ?_, sort, hsort, fun hother => ?_⟩
  · obtain rfl := hnamed hname
    have hfilter : filterList omitted pool AnnotationUse.listFormat id attr = .ok left := by
      rcases List.mem_pair.mp hmem with rfl | rfl <;> simpa only [if_neg hplace] using h
    exact listLeft_of_filterList (AnnotationUse.exact_format.list 2) hfilter
  · obtain rfl := hnamed hname
    have hfilter : filterList omitted pool TypeAnnotationUse.listFormat TypeAnnotationUse.content
        attr = .ok left := by
      rcases List.mem_pair.mp hmem with rfl | rfl <;> exact h
    exact listLeft_of_filterList (TypeAnnotationUse.exact_format.list 2) hfilter
  · obtain rfl := hnamed hname
    apply parametersLeft_of_filterParameters
    rcases List.mem_pair.mp hmem with rfl | rfl <;>
      simpa only [hplace, ne_eq, not_true_eq_false, if_false] using h
  · obtain rfl := hnamed hname
    simp only [hplace, if_true] at h
    exact (except_pure_eq_ok.mp h).symm
  · rwa [if_neg (by simp [hother])] at hframed

theorem left_of_filterAttribute (h : filterAttribute omitted pool place attr = .ok left) :
    Left omitted pool place attr left := by
  obtain ⟨sort, hsort, h⟩ := filterAttribute_eq_ok.mp h
  have hcode : sort = some .code ↔ attr.nameIn pool = .ok AttributeName.code.text := by
    rw [← Attribute.sort_eq_some_iff, hsort, Except.ok.injEq]
  constructor
  · intro hplace hname
    rw [if_pos ⟨hplace, hcode.mpr hname⟩] at h
    obtain ⟨attr', hfilter, rfl⟩ := h
    exact codeLeft_of_filterCode hfilter plainLeft_of_filterPlain
  · intro hother
    rw [if_neg (mt (And.imp_right hcode.mp) hother)] at h
    exact plainLeft_of_filterPlain h

theorem memberLeft_of_filterMember {member member' : Member}
    (h : filterMember omitted pool place member = .ok member') :
    MemberLeft omitted pool place member member' := by
  simp only [filterMember, filterAttributes, except_bind_eq_ok, except_pure_eq_ok] at h
  obtain ⟨attributes, hattributes, rfl⟩ := h
  obtain ⟨options, hoptions, rfl⟩ := except_filterMapM_eq_ok.mp hattributes
  exact ⟨rfl, options, hoptions.imp fun _ _ hfilter => left_of_filterAttribute hfilter, rfl⟩

theorem not_parameterNames_of_filterMember {method method' : Member}
    (h : filterMember omitted pool .method method = .ok method') {attr' : Attribute}
    (hmem : attr' ∈ method'.attributes) :
    attr'.nameIn pool ≠ .ok AttributeName.methodParameters.text := by
  intro hname
  obtain ⟨attr, -, hfilter⟩ := (passedBy_of_filterMember h).attributes.exists_of_mem hmem
  have hsame : attr'.name = attr.name := keepsName_of_filterAttribute hfilter
  have hname' : attr.nameIn pool = .ok AttributeName.methodParameters.text := by
    rw [Attribute.nameIn_eq_ok, ← hsame]
    exact Attribute.nameIn_eq_ok.mp hname
  have hother : ¬ (Place.method = .method ∧ attr.nameIn pool = .ok AttributeName.code.text) := by
    rintro ⟨-, hcode⟩
    exact absurd (Except.ok.inj (hname'.symm.trans hcode)) (by decide)
  cases ((left_of_filterAttribute hfilter).plain hother).parameterNames rfl hname'

end Treatments

end Omission

/-- Omitting annotations removes exactly the omitted ones, wherever annotations may stand. The rest
of the class, its pool included, and the headers of its members stay, attributes stay in their
order, and no method keeps the names of its parameters. -/
theorem ClassFile.omitAnnotations_exact {file left : ClassFile} {omitted : NameSet}
    (h : file.omitAnnotations omitted = .ok left) :
    left = { file with
      fields := left.fields, methods := left.methods, attributes := left.attributes } ∧
    AttributePass.OnList (Omission.Left omitted file.pool .class) file.attributes
      left.attributes ∧
    List.Forall₂ (Omission.MemberLeft omitted file.pool .field) file.fields left.fields ∧
    List.Forall₂ (Omission.MemberLeft omitted file.pool .method) file.methods left.methods ∧
    ∀ method ∈ left.methods, ∀ attr ∈ method.attributes,
      attr.nameIn left.pool ≠ .ok AttributeName.methodParameters.text := by
  simp only [ClassFile.omitAnnotations, Omission.filterAttributes, except_bind_eq_ok,
    except_pure_eq_ok] at h
  obtain ⟨attributes, hattributes, fields, hfields, methods, hmethods, rfl⟩ := h
  obtain ⟨options, hoptions, rfl⟩ := except_filterMapM_eq_ok.mp hattributes
  have hmethods := except_mapM_eq_ok.mp hmethods
  refine ⟨rfl, ⟨options, ?_, rfl⟩, ?_, ?_, ?_⟩
  · exact hoptions.imp fun _ _ hfilter => Omission.left_of_filterAttribute hfilter
  · exact (except_mapM_eq_ok.mp hfields).imp fun _ _ hfilter =>
      Omission.memberLeft_of_filterMember hfilter
  · exact hmethods.imp fun _ _ hfilter => Omission.memberLeft_of_filterMember hfilter
  · intro method' hmethod' attr' hmem
    obtain ⟨method, -, hfilter⟩ := forall₂_mem_right hmethods hmethod'
    exact Omission.not_parameterNames_of_filterMember hfilter hmem

/-- A class with an omitted annotation and a kept one. Its method has an omitted annotation on its
parameter and on a type in its code, and the names of its parameters. -/
def annotatedClass : ClassFile :=
  let text (s : String) : Slot := .entry (.utf8 (.valid s))
  let annotations : Bytes := [0, 2, 0, 6, 0, 0, 0, 7, 0, 0]
  let typeAnnotations : Bytes := [0, 1, 0x44, 0, 0, 0, 0, 6, 0, 0]
  let code : Bytes := [0, 1, 0, 1, 0, 0, 0, 1, 0xB1, 0, 0, 0, 1, 0, 10, 0, 0, 0, 10]
  { minorVersion := 0
    majorVersion := 52
    pool := ⟨#[.gap, text "p/B", .entry (.class 1), text "run", text "(I)V",
      text AttributeName.code.text, text "Lp/Api;", text "Lp/Kept;",
      text AttributeName.invisibleAnnotations.text,
      text AttributeName.visibleParameterAnnotations.text,
      text AttributeName.invisibleTypeAnnotations.text, text AttributeName.methodParameters.text,
      text "java/lang/Object", .entry (.class 12)]⟩
    flags := ⟨0x0021⟩
    thisClass := 2
    superClass := 13
    interfaces := []
    fields := []
    methods := [⟨⟨0x0009⟩, 3, 4, [⟨11, [1, 0, 0, 0, 0]⟩, ⟨9, [1, 0, 1, 0, 6, 0, 0]⟩,
      ⟨5, code ++ typeAnnotations⟩]⟩]
    attributes := [⟨8, annotations⟩] }

/-- The other annotation of the class is left, and the code of the method without annotations. -/
theorem omitAnnotations_exact_of_annotatedClass :
    ∃ left, annotatedClass.omitAnnotations (Std.ExtTreeSet.ofList ["Lp/Api;"]) = .ok left ∧
      left.attributes = [⟨8, [0, 1, 0, 7, 0, 0]⟩] ∧
      left.methods.map Member.attributes =
        [[⟨5, [0, 1, 0, 1, 0, 0, 0, 1, 0xB1, 0, 0, 0, 0]⟩]] ∧
      List.Forall₂ (Omission.MemberLeft (Std.ExtTreeSet.ofList ["Lp/Api;"]) annotatedClass.pool
        .method) annotatedClass.methods left.methods := by
  have hrun : (annotatedClass.omitAnnotations (Std.ExtTreeSet.ofList ["Lp/Api;"])).toOption.map
      (fun left => (left.attributes, left.methods.map Member.attributes)) =
      some ([⟨8, [0, 1, 0, 7, 0, 0]⟩],
        [[⟨5, [0, 1, 0, 1, 0, 0, 0, 1, 0xB1, 0, 0, 0, 0]⟩]]) := by decide +kernel
  obtain ⟨left, hfound, hresult⟩ := Option.map_eq_some_iff.mp hrun
  obtain ⟨hattributes, hmethods⟩ := Prod.mk.inj hresult
  have hleft := toOption_eq_some.mp hfound
  obtain ⟨-, -, -, hmembers, -⟩ := ClassFile.omitAnnotations_exact hleft
  exact ⟨left, hleft, hattributes, hmethods, hmembers⟩

end StaticCompanion
