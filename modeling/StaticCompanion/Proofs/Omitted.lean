import StaticCompanion.Proofs.Attributes
import StaticCompanion.Relocation.Omission

namespace StaticCompanion

structure Member.SameHeader (member member' : Member) : Prop where
  flags : member'.flags = member.flags
  name : member'.name = member.name
  descriptor : member'.descriptor = member.descriptor

theorem Member.SameHeader.keyIn {member member' : Member} (h : member.SameHeader member')
    (owner : String) (pool : ConstantPool) :
    member'.keyIn owner pool = member.keyIn owner pool := by
  simp only [Member.keyIn, Member.nameIn, Member.descriptorIn, h.name, h.descriptor]

namespace Omission
variable {omitted : NameSet} {pool : ConstantPool} {place : Place} {attr : Attribute}
  {kept : Option Attribute}

theorem keepsName_of_filterList {α : Type} {format : Format (List α)} {use : α → AnnotationUse}
    (h : filterList omitted pool format use attr = .ok kept) : attr.KeepsName kept := by
  simp only [filterList, except_bind_eq_ok] at h
  obtain ⟨items, -, others, -, h⟩ := h
  split at h
  · obtain rfl := except_pure_eq_ok.mp h
    trivial
  split at h
  · obtain rfl := except_pure_eq_ok.mp h
    exact attr.keepsName_self
  · simp only [except_bind_eq_ok, lift_write_eq_ok, except_pure_eq_ok] at h
    obtain ⟨attr', hencode, rfl⟩ := h
    exact Attribute.name_of_encode hencode

theorem keepsName_of_filterParameters (h : filterParameters omitted pool attr = .ok kept) :
    attr.KeepsName kept := by
  simp only [filterParameters, except_bind_eq_ok] at h
  obtain ⟨lists, -, others, -, h⟩ := h
  split at h
  · obtain rfl := except_pure_eq_ok.mp h
    exact attr.keepsName_self
  split at h
  · obtain rfl := except_pure_eq_ok.mp h
    trivial
  · simp only [except_bind_eq_ok, lift_write_eq_ok, except_pure_eq_ok] at h
    obtain ⟨attr', hencode, rfl⟩ := h
    exact Attribute.name_of_encode hencode

theorem filterPlain_eq_ok (h : filterPlain omitted pool place attr = .ok kept) :
    attr.KeepsName kept ∧ ∃ sort, attr.sort pool = .ok sort ∧
      (sort = some .code ∨ sort = some .bootstrapMethods → kept = some attr) := by
  simp only [filterPlain, except_bind_eq_ok, lift_class_eq_ok] at h
  obtain ⟨sort, hsort, h⟩ := h
  have hself (h : (pure (some attr) : Except RelocationFault _) = .ok kept) :
      attr.KeepsName kept := by
    obtain rfl := except_pure_eq_ok.mp h
    exact attr.keepsName_self
  refine ⟨?_, sort, hsort, ?_⟩
  · split at h
    · split at h
      · exact hself h
      · exact keepsName_of_filterList h
    · split at h
      · exact hself h
      · exact keepsName_of_filterList h
    · exact keepsName_of_filterList h
    · exact keepsName_of_filterList h
    · split at h
      · exact hself h
      · exact keepsName_of_filterParameters h
    · split at h
      · exact hself h
      · exact keepsName_of_filterParameters h
    · split at h
      · obtain rfl := except_pure_eq_ok.mp h
        trivial
      · exact hself h
    · exact hself h
  · rintro (rfl | rfl) <;> exact (except_pure_eq_ok.mp h).symm

theorem filterCode_eq_ok {attr' : Attribute} (h : filterCode omitted pool attr = .ok attr') :
    attr'.name = attr.name ∧ ∃ code attributes, Code.format.decode attr.info = .ok code ∧
      Code.format.decode attr'.info = .ok { code with attributes } := by
  simp only [filterCode, except_bind_eq_ok, lift_class_eq_ok] at h
  obtain ⟨code, hdecode, attributes, -, h⟩ := h
  split at h
  · obtain rfl := except_pure_eq_ok.mp h
    exact ⟨rfl, code, code.attributes, hdecode, hdecode⟩
  · obtain ⟨hname, hdecode'⟩ := Attribute.encode_eq_ok Code.readsBack (lift_write_eq_ok.mp h)
    exact ⟨hname, code, attributes, hdecode, hdecode'⟩

/-- Code of methods is looked into, and other attributes are filtered as a whole. -/
theorem filterAttribute_eq_ok : filterAttribute omitted pool place attr = .ok kept ↔
    ∃ sort, attr.sort pool = .ok sort ∧
      if place = .method ∧ sort = some .code then
        ∃ attr', filterCode omitted pool attr = .ok attr' ∧ kept = some attr'
      else filterPlain omitted pool place attr = .ok kept := by
  simp only [filterAttribute, except_bind_eq_ok, lift_class_eq_ok]
  refine exists_congr fun sort => and_congr_right fun _ => ?_
  split
  · simp only [except_bind_eq_ok, except_pure_eq_ok]
    simp only [eq_comm]
  · rfl

theorem keepsName_of_filterAttribute (h : filterAttribute omitted pool place attr = .ok kept) :
    attr.KeepsName kept := by
  obtain ⟨sort, -, h⟩ := filterAttribute_eq_ok.mp h
  split at h
  · obtain ⟨attr', hfilter, rfl⟩ := h
    exact (filterCode_eq_ok hfilter).1
  · exact (filterPlain_eq_ok h).1

structure OmittedMethod (pool : ConstantPool) (method method' : Member) : Prop where
  header : method.SameHeader method'
  code : ∀ code, method.codeIn pool = .ok (some code) →
    ∃ code', method'.codeIn pool = .ok (some code') ∧ code'.bytes = code.bytes

theorem sameHeader_of_filterMember {member member' : Member}
    (h : filterMember omitted pool place member = .ok member') : member.SameHeader member' := by
  simp only [filterMember, except_bind_eq_ok, except_pure_eq_ok] at h
  obtain ⟨attributes, -, rfl⟩ := h
  exact ⟨rfl, rfl, rfl⟩

theorem omittedMethod_of_filterMember {method method' : Member}
    (h : filterMember omitted pool .method method = .ok method') :
    OmittedMethod pool method method' := by
  refine ⟨sameHeader_of_filterMember h, ?_⟩
  intro code hcode
  simp only [filterMember, filterAttributes, except_bind_eq_ok, except_pure_eq_ok,
    except_filterMapM_eq_ok] at h
  obtain ⟨_, ⟨options, hoptions, rfl⟩, rfl⟩ := h
  obtain ⟨found, hfound, hbody⟩ := Member.codeIn_eq_ok.mp hcode
  have hchange : List.Forall₂ (Attribute.ChangesTo pool AttributeName.code.text fun a b =>
      b.name = a.name ∧ (a.nameIn pool = .ok AttributeName.code.text →
        ∃ code attributes, Code.format.decode a.info = .ok code ∧
          Code.format.decode b.info = .ok { code with attributes })) method.attributes options := by
    apply hoptions.imp
    intro a o hfilter
    obtain ⟨sort, hsort, hfilter⟩ := filterAttribute_eq_ok.mp hfilter
    have hcodeSort (hname : a.nameIn pool = .ok AttributeName.code.text) : sort = some .code :=
      Except.ok.inj (hsort.symm.trans (Attribute.sort_eq_some_iff.mpr hname))
    split at hfilter
    · obtain ⟨b, hcode, rfl⟩ := hfilter
      exact ⟨(filterCode_eq_ok hcode).1, fun _ => (filterCode_eq_ok hcode).2⟩
    · rename_i hother
      cases o with
      | none =>
        intro hname
        exact hother ⟨rfl, hcodeSort hname⟩
      | some b =>
        refine ⟨(filterPlain_eq_ok hfilter).1, ?_⟩
        intro hname
        exact absurd ⟨rfl, hcodeSort hname⟩ hother
  obtain ⟨found', hfound', hrel⟩ := Attribute.find?_reduceOption (fun _ _ h => h.1) hchange hfound
  cases hrel with
  | none => cases hbody
  | @some attr attr' hkept =>
    obtain ⟨body, hdecode, hsame⟩ := hbody
    obtain rfl := Option.some.inj hsame
    obtain ⟨code', attributes, hdecode', hafter⟩ := hkept.2 (Attribute.of_find?_eq_some hfound).2
    obtain rfl := Except.ok.inj (hdecode.symm.trans hdecode')
    exact ⟨_, Member.codeIn_eq_ok.mpr ⟨some attr', hfound', _, hafter, rfl⟩, rfl⟩

theorem table_of_filterAttribute {kept : Option Attribute}
    (h : filterAttribute omitted pool .class attr = .ok kept) : attr.KeepsName kept ∧
      (attr.nameIn pool = .ok AttributeName.bootstrapMethods.text → kept = some attr) := by
  refine ⟨keepsName_of_filterAttribute h, ?_⟩
  intro htable
  obtain ⟨_, -, hplain⟩ := filterAttribute_eq_ok.mp h
  rw [if_neg (by simp)] at hplain
  obtain ⟨-, sort, hsort, hkept⟩ := filterPlain_eq_ok hplain
  have hbootstraps : sort = some .bootstrapMethods :=
    Except.ok.inj (hsort.symm.trans (Attribute.sort_eq_some_iff.mpr htable))
  exact hkept (.inr hbootstraps)

structure OmittedClass (file file' : ClassFile) : Prop where
  pool : file'.pool = file.pool
  thisClass : file'.thisClass = file.thisClass
  fields : List.Forall₂ Member.SameHeader file.fields file'.fields
  methods : List.Forall₂ (OmittedMethod file.pool) file.methods file'.methods
  table : ∀ table, file.bootstraps = .ok table → file'.bootstraps = .ok table

theorem omittedClass_of_omitAnnotations {file file' : ClassFile}
    (h : file.omitAnnotations omitted = .ok file') : OmittedClass file file' := by
  simp only [ClassFile.omitAnnotations, except_bind_eq_ok, except_pure_eq_ok] at h
  obtain ⟨attributes, hattributes, fields, hfields, methods, hmethods, rfl⟩ := h
  refine ⟨rfl, rfl, ?_, ?_, ?_⟩
  · exact (except_mapM_eq_ok.mp hfields).imp fun _ _ => sameHeader_of_filterMember
  · exact (except_mapM_eq_ok.mp hmethods).imp fun _ _ => omittedMethod_of_filterMember
  · intro table htable
    obtain ⟨found, hfound, hread⟩ := ClassFile.bootstraps_eq_ok.mp htable
    obtain ⟨options, hoptions, rfl⟩ := except_filterMapM_eq_ok.mp hattributes
    have hkept := hoptions.imp fun _ _ hfilter => table_of_filterAttribute hfilter
    exact ClassFile.bootstraps_eq_ok.mpr ⟨found, Attribute.find?_of_kept hkept hfound, hread⟩

end Omission

end StaticCompanion
