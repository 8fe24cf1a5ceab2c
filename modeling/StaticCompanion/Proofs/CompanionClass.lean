import StaticCompanion.Proofs.Flags
import StaticCompanion.Proofs.Instructions
import StaticCompanion.Proofs.Naming
import StaticCompanion.Proofs.Uses
import StaticCompanion.Relocation.Companion

namespace StaticCompanion

section StaticForm
variable {p q : ConstantPool} {attr attr' : Attribute} {attributes attributes' : List Attribute}

namespace Member

/-- The attributes that do not account for a parameter in front. -/
def droppedSorts : List AttributeName := [.signature, .methodParameters]

/-- The attributes that have a list for each parameter. -/
def listingSorts : List AttributeName :=
  [.visibleParameterAnnotations, .invisibleParameterAnnotations]

theorem shiftParameters_eq_ok {shifted : Option Attribute}
    (h : shiftParameters p attr = .ok shifted) :
    ∃ sort, attr.sort p = .ok sort ∧
      ((∃ name ∈ droppedSorts, sort = some name) ∧ shifted = none ∨
        (∃ name ∈ listingSorts, sort = some name) ∧ (∃ lists attr',
          AnnotationUse.parametersFormat.decode attr.info = .ok lists ∧
          attr.encode AnnotationUse.parametersFormat ([] :: lists) = .ok attr' ∧
          shifted = some attr') ∨
        (∀ name ∈ listingSorts, sort ≠ some name) ∧ shifted = some attr) := by
  simp only [shiftParameters, except_bind_eq_ok, lift_class_eq_ok] at h
  obtain ⟨sort, hsort, h⟩ := h
  have hencoded (h : (do
        let lists ← AnnotationUse.parametersFormat.decode attr.info
        return some (← attr.encode AnnotationUse.parametersFormat ([] :: lists)) :
          Except RelocationFault (Option Attribute)) = .ok shifted) : ∃ lists attr',
      AnnotationUse.parametersFormat.decode attr.info = .ok lists ∧
        attr.encode AnnotationUse.parametersFormat ([] :: lists) = .ok attr' ∧
        shifted = some attr' := by
    simp only [except_bind_eq_ok, lift_class_eq_ok, lift_write_eq_ok, except_pure_eq_ok] at h
    obtain ⟨lists, hdecode, attr', hencode, rfl⟩ := h
    exact ⟨lists, attr', hdecode, hencode, rfl⟩
  refine ⟨sort, hsort, ?_⟩
  split at h
  · exact .inl ⟨⟨_, by decide, rfl⟩, (except_pure_eq_ok.mp h).symm⟩
  · exact .inl ⟨⟨_, by decide, rfl⟩, (except_pure_eq_ok.mp h).symm⟩
  · exact .inr (.inl ⟨⟨_, by decide, rfl⟩, hencoded h⟩)
  · exact .inr (.inl ⟨⟨_, by decide, rfl⟩, hencoded h⟩)
  · rename_i hvisible hinvisible
    refine .inr (.inr ⟨fun name hmem hname => ?_, (except_pure_eq_ok.mp h).symm⟩)
    rcases List.mem_pair.mp hmem with rfl | rfl
    · exact hvisible hname
    · exact hinvisible hname

theorem keeps_of_shiftParameters {shifted : Option Attribute}
    (h : shiftParameters p attr = .ok shifted) :
    attr.KeepsName shifted ∧
      ∃ sort, attr.sort p = .ok sort ∧ (sort = some .code → shifted = some attr) := by
  obtain ⟨sort, hsort, ⟨⟨name, hname, rfl⟩, rfl⟩ | ⟨⟨name, hname, rfl⟩, hlists⟩ | ⟨-, rfl⟩⟩ :=
    shiftParameters_eq_ok h
  · refine ⟨trivial, _, hsort, ?_⟩
    rintro ⟨⟩
    exact absurd hname (by decide)
  · obtain ⟨lists, attr', -, hencode, rfl⟩ := hlists
    refine ⟨Attribute.name_of_encode hencode, _, hsort, ?_⟩
    rintro ⟨⟩
    exact absurd hname (by decide)
  · exact ⟨attr.keepsName_self, _, hsort, fun _ => rfl⟩

theorem toStatic_eq_ok {owner : String} {method copy : Member}
    (h : method.toStatic owner p = .ok copy q) :
    ∃ key, method.keyIn owner p = .ok key ∧ key.name ∉ initializerNames ∧
      method.flags.hasAny (AccessFlags.isAbstract ||| AccessFlags.isNative) = false ∧
      (method.isStatic = true ∧ q = p ∧ copy = { method with flags := method.flags.toPublic } ∨
        method.isStatic = false ∧
          copy.flags = method.flags.toPublic.set AccessFlags.isStatic ∧ copy.name = method.name ∧
          ∃ descriptor, withReceiver owner key.descriptor = .ok descriptor ∧
            ConstantPool.putText descriptor p = .ok copy.descriptor q ∧
            shiftAllParameters q method.attributes = .ok copy.attributes) := by
  simp only [toStatic, state_bind_eq_ok, state_get_eq_ok, state_lift_eq_ok,
    lift_class_eq_ok] at h
  obtain ⟨_, _, ⟨rfl, rfl⟩, key, _, ⟨hkey, rfl⟩, h⟩ := h
  split at h
  · simp at h
  rename_i hbody
  split at h
  · simp at h
  rename_i hplain
  rw [List.contains_iff_mem] at hplain
  refine ⟨key, hkey, hplain, eq_false_of_ne_true hbody, ?_⟩
  split at h
  · rename_i hstatic
    obtain ⟨rfl, rfl⟩ := state_pure_eq_ok.mp h
    exact .inl ⟨hstatic, rfl, rfl⟩
  · rename_i hinstance
    simp only [state_bind_eq_ok, state_get_eq_ok, state_lift_eq_ok, lift_descriptor_eq_ok,
      lift_change_eq_ok, lift_relocation_eq_ok, state_pure_eq_ok] at h
    obtain ⟨descriptor, _, ⟨hreceiver, rfl⟩, index, _, hput, _, _, ⟨rfl, rfl⟩, attributes, _,
      ⟨hshift, rfl⟩, rfl, rfl⟩ := h
    exact .inr ⟨eq_false_of_ne_true hinstance, rfl, rfl, descriptor, hreceiver, hput, hshift⟩

end Member

theorem find?_shiftAllParameters (hle : p ≤ q)
    (h : Member.shiftAllParameters p attributes = .ok attributes') {found : Option Attribute}
    (hfound : Attribute.find? q AttributeName.code.text attributes = .ok found) :
    Attribute.find? q AttributeName.code.text attributes' = .ok found := by
  obtain ⟨options, hoptions, rfl⟩ := except_filterMapM_eq_ok.mp h
  refine Attribute.find?_of_kept ?_ hfound
  apply hoptions.imp
  intro attr shifted hshift
  obtain ⟨hname, sort, hsort, hkept⟩ := Member.keeps_of_shiftParameters hshift
  refine ⟨hname, ?_⟩
  intro hcode
  have hsort' := Attribute.sort_of_le hle hsort
  exact hkept (Except.ok.inj (hsort'.symm.trans (Attribute.sort_eq_some_iff.mpr hcode)))

theorem exists_find?_of_shift (hle : p ≤ q)
    (h : Member.shiftAllParameters p attributes = .ok attributes') (name : String) :
    ∃ found, Attribute.find? q name attributes = .ok found := by
  obtain ⟨options, hoptions, -⟩ := except_filterMapM_eq_ok.mp h
  apply Attribute.exists_find?
  intro attr hmem
  obtain ⟨shifted, -, hshift⟩ := forall₂_mem_left hoptions hmem
  obtain ⟨sort, hsort, -⟩ := Member.shiftParameters_eq_ok hshift
  exact Attribute.exists_nameIn_of_sort (Attribute.sort_of_le hle hsort)

theorem codeIn_shiftAllParameters {method copy : Member} (hle : p ≤ q)
    (h : Member.shiftAllParameters p method.attributes = .ok copy.attributes) {code : Option Code}
    (hcode : method.codeIn q = .ok code) : copy.codeIn q = .ok code := by
  obtain ⟨found, hfound, hcode⟩ := Member.codeIn_eq_ok.mp hcode
  exact Member.codeIn_eq_ok.mpr ⟨found, find?_shiftAllParameters hle h hfound, hcode⟩

end StaticForm

namespace Companion
variable {analysis : Analysis} {p q : ConstantPool} {owner : String}

structure CopiedMethod (owner : String) (pool : ConstantPool) (method copy : Member) : Prop where
  key : ∃ key moved, method.keyIn owner pool = .ok key ∧
    key.name ∉ Member.initializerNames ∧ key.movedMethod method.isStatic = .ok moved ∧
    copy.keyIn (companionName owner) pool = .ok moved
  flags : copy.flags = method.flags.toPublic.set AccessFlags.isStatic
  attributes : copy.attributes = method.attributes ∨ ∃ earlier ≤ pool,
    Member.shiftAllParameters earlier method.attributes = .ok copy.attributes

variable {method copy : Member}

theorem CopiedMethod.of_le (hle : p ≤ q) (h : CopiedMethod owner p method copy) :
    CopiedMethod owner q method copy := by
  obtain ⟨key, moved, hkey, hplain, hmoved, hcopy⟩ := h.key
  refine ⟨⟨key, moved, Member.keyIn_of_le hle hkey, hplain, hmoved, Member.keyIn_of_le hle hcopy⟩,
    h.flags, h.attributes.imp_right ?_⟩
  rintro ⟨earlier, hearlier, hshift⟩
  exact ⟨earlier, ConstantPool.le_trans hearlier hle, hshift⟩

theorem CopiedMethod.isPublic (h : CopiedMethod owner p method copy) : copy.isPublic = true := by
  rw [Member.isPublic, h.flags]
  exact AccessFlags.has_set_of_has (AccessFlags.isPublic_toPublic _)

theorem CopiedMethod.isStatic (h : CopiedMethod owner p method copy) : copy.isStatic = true := by
  rw [Member.isStatic, h.flags]
  exact AccessFlags.has_set _ _

theorem CopiedMethod.not_hidden (h : CopiedMethod owner p method copy) :
    copy.flags.hasAny (AccessFlags.isPrivate ||| AccessFlags.isProtected) = false := by
  rw [h.flags, AccessFlags.hasAny_set (by decide), AccessFlags.not_hidden_toPublic]

theorem CopiedMethod.codeIn (h : CopiedMethod owner p method copy) {code : Option Code}
    (hcode : method.codeIn p = .ok code) : copy.codeIn p = .ok code := by
  rcases h.attributes with hsame | ⟨earlier, hle, hshift⟩
  · rwa [Member.codeIn, hsame]
  · exact codeIn_shiftAllParameters hle hshift hcode

theorem CopiedMethod.uses (h : CopiedMethod owner p method copy) {table : List Bootstrap}
    {uses : List Use} (huses : method.uses p table = .ok uses) : copy.uses p table = .ok uses := by
  obtain ⟨code, hcode, huses⟩ := Member.uses_eq_ok.mp huses
  exact Member.uses_eq_ok.mpr ⟨code, h.codeIn hcode, huses⟩

/-- The two methods have the same code attribute, or none. -/
def SameCode (pool : ConstantPool) (method copy : Member) : Prop :=
  ∃ found, Attribute.find? pool AttributeName.code.text method.attributes = .ok found ∧
    Attribute.find? pool AttributeName.code.text copy.attributes = .ok found

theorem CopiedMethod.sameCode (h : CopiedMethod owner p method copy) {code : Option Code}
    (hcode : copy.codeIn p = .ok code) : SameCode p method copy := by
  rcases h.attributes with hsame | ⟨earlier, hle, hshift⟩
  · obtain ⟨found, hfound, -⟩ := Member.codeIn_eq_ok.mp hcode
    exact ⟨found, hsame ▸ hfound, hfound⟩
  · obtain ⟨found, hfound⟩ := exists_find?_of_shift hle hshift AttributeName.code.text
    exact ⟨found, hfound, find?_shiftAllParameters hle hshift hfound⟩

theorem toStatic_grows (method : Member) :
    ConstantPool.Grows (method.toStatic owner) fun copy pool =>
      CopiedMethod owner pool method copy := by
  intro p copy p' hfits hrun
  obtain ⟨key, hkey, hplain, -, ⟨hstatic, rfl, rfl⟩ | ⟨hinstance, hflags, hsame, descriptor,
    hreceiver, hput, hshift⟩⟩ := Member.toStatic_eq_ok hrun
  · obtain ⟨howner, hname, hdescriptor⟩ := Member.keyIn_eq_ok.mp hkey
    have hmoved : key.movedMethod method.isStatic =
        .ok ⟨companionName owner, key.name, key.descriptor⟩ := by
      rw [MemberKey.movedMethod_eq_ok, if_pos hstatic, howner]
      exact ⟨rfl, rfl, rfl⟩
    refine ⟨ConstantPool.le_refl _, hfits, ⟨key, _, hkey, hplain, hmoved,
      Member.keyIn_eq_ok.mpr ⟨rfl, hname, hdescriptor⟩⟩, ?_, .inl rfl⟩
    exact (AccessFlags.set_of_has (AccessFlags.isStatic_toPublic hstatic)).symm
  · obtain ⟨howner, hname, -⟩ := Member.keyIn_eq_ok.mp hkey
    obtain ⟨hle, hfits', hnew⟩ := ConstantPool.putText_grows descriptor hfits hput
    have hmoved : key.movedMethod method.isStatic =
        .ok ⟨companionName owner, key.name, descriptor⟩ := by
      rw [MemberKey.movedMethod_eq_ok, if_neg (by simp [hinstance]), howner]
      exact ⟨rfl, rfl, hreceiver⟩
    have hcopy : copy.keyIn (companionName owner) p' =
        .ok ⟨companionName owner, key.name, descriptor⟩ :=
      Member.keyIn_eq_ok.mpr ⟨rfl, hsame ▸ ConstantPool.text_of_le hle hname, hnew⟩
    exact ⟨hle, hfits', ⟨key, _, Member.keyIn_of_le hle hkey, hplain, hmoved, hcopy⟩, hflags,
      .inr ⟨_, ConstantPool.le_refl _, hshift⟩⟩

def CallsDynamically (code : Bytes) : Prop :=
  ∃ instructions, Instruction.decode code = .ok instructions ∧
    ∃ instruction ∈ instructions, ∃ index, instruction.action = .dynamicCall index

theorem checkCode_eq_ok {table : List Bootstrap} {code : Bytes} {hasSites : Bool}
    (h : checkCode p table owner code = .ok hasSites) (hsites : CallsDynamically code) :
    hasSites = true := by
  obtain ⟨instructions, hdecode, instruction, hmem, index, haction⟩ := hsites
  simp only [checkCode, except_bind_eq_ok, lift_malformation_eq_ok, except_pure_eq_ok] at h
  obtain ⟨_, hdecode', _, -, rfl⟩ := h
  obtain rfl := Except.ok.inj (hdecode.symm.trans hdecode')
  rw [Bool.not_eq_true', List.isEmpty_eq_false_iff]
  apply List.ne_nil_of_mem (a := index)
  rw [List.mem_filterMap]
  exact ⟨instruction, hmem, by rw [haction]⟩

/-- A copy with a mark that is set if the body of the copy makes a dynamic call. -/
structure CheckedCopy (owner : String) (pool : ConstantPool) (method : Member)
    (copy : Member × Bool) : Prop where
  copied : CopiedMethod owner pool method copy.1
  marked : ∃ code, copy.1.codeIn pool = .ok code ∧
    ∀ body, code = some body → CallsDynamically body.bytes → copy.2 = true

theorem CheckedCopy.of_le {copy : Member × Bool} (hle : p ≤ q)
    (h : CheckedCopy owner p method copy) : CheckedCopy owner q method copy := by
  obtain ⟨code, hcode, hmarked⟩ := h.marked
  exact ⟨h.copied.of_le hle, code, Member.codeIn_of_le hle hcode, hmarked⟩

theorem copyMethod_grows {table : List Bootstrap} (method : Member) :
    ConstantPool.Grows (copyMethod table owner method) fun copy pool =>
      CheckedCopy owner pool method copy := by
  intro p copy p' hfits hrun
  simp only [copyMethod, state_bind_eq_ok, state_get_eq_ok, state_lift_eq_ok,
    lift_class_eq_ok] at hrun
  obtain ⟨copy', p₁, hcopy, _, _, ⟨rfl, rfl⟩, code, _, ⟨hcode, rfl⟩, hrun⟩ := hrun
  obtain ⟨hle, hfits₁, hcopied⟩ := toStatic_grows method hfits hcopy
  cases code with
  | none =>
    obtain ⟨rfl, rfl⟩ := state_pure_eq_ok.mp hrun
    exact ⟨hle, hfits₁, hcopied, none, hcode, by simp⟩
  | some body =>
    simp only [state_bind_eq_ok, state_get_eq_ok, state_lift_eq_ok, lift_relocation_eq_ok,
      state_pure_eq_ok] at hrun
    obtain ⟨_, _, ⟨rfl, rfl⟩, hasSites, _, ⟨hcheck, rfl⟩, rfl, rfl⟩ := hrun
    refine ⟨hle, hfits₁, hcopied, some body, hcode, ?_⟩
    intro body' hbody hsites
    obtain rfl := Option.some.inj hbody
    exact checkCode_eq_ok hcheck hsites

structure CopiedField (pool : ConstantPool) (key : MemberKey) (field copy : Member) : Prop where
  flags : copy.flags = field.flags.toPublic
  key : copy.keyIn key.owner pool = .ok key

theorem CopiedField.of_le {key : MemberKey} {field copy : Member} (hle : p ≤ q)
    (h : CopiedField p key field copy) : CopiedField q key field copy :=
  ⟨h.flags, Member.keyIn_of_le hle h.key⟩

theorem CopiedField.isPublic {key : MemberKey} {field copy : Member}
    (h : CopiedField p key field copy) : copy.isPublic = true := by
  rw [Member.isPublic, h.flags]
  exact AccessFlags.isPublic_toPublic _

theorem copyField_grows (field : Member) (key : MemberKey) :
    ConstantPool.Grows (copyField field key) fun copy pool => CopiedField pool key field copy := by
  intro p copy p' hfits hrun
  simp only [copyField, state_bind_eq_ok, state_get_eq_ok, lift_change_eq_ok, state_pure_eq_ok]
    at hrun
  obtain ⟨_, _, ⟨rfl, rfl⟩, name, p₁, hname, descriptor, p₂, hdescriptor, rfl, rfl⟩ := hrun
  obtain ⟨hle₁, hfits₁, hname⟩ := ConstantPool.putText_grows key.name hfits hname
  obtain ⟨hle₂, hfits₂, hdescriptor⟩ :=
    ConstantPool.putText_grows key.descriptor hfits₁ hdescriptor
  exact ⟨ConstantPool.le_trans hle₁ hle₂, hfits₂, rfl,
    Member.keyIn_eq_ok.mpr ⟨rfl, ConstantPool.text_of_le hle₂ hname, hdescriptor⟩⟩

/-- The constructor of a class without objects. -/
structure HiddenConstructor (pool : ConstantPool) (first : Member) : Prop where
  flags : first.flags = ⟨AccessFlags.isPrivate⟩
  key : ∀ owner, first.keyIn owner pool = .ok { rootConstructor with owner }

theorem HiddenConstructor.of_le {first : Member} (hle : p ≤ q) (h : HiddenConstructor p first) :
    HiddenConstructor q first :=
  ⟨h.flags, fun owner => Member.keyIn_of_le hle (h.key owner)⟩

theorem constructor_grows :
    ConstantPool.Grows constructor fun first pool => HiddenConstructor pool first := by
  intro p first p' hfits hrun
  simp only [constructor, state_bind_eq_ok, lift_change_eq_ok, state_lift_eq_ok,
    lift_write_eq_ok, state_pure_eq_ok] at hrun
  obtain ⟨index, p₁, hmember, codeName, p₂, hcode, name, p₃, hname, descriptor, p₄, hdescriptor,
    attr, _, ⟨-, rfl⟩, rfl, rfl⟩ := hrun
  obtain ⟨hle₁, hfits₁, -⟩ := ConstantPool.putMember_grows .method rootConstructor hfits hmember
  obtain ⟨hle₂, hfits₂, -⟩ := ConstantPool.putText_grows _ hfits₁ hcode
  obtain ⟨hle₃, hfits₃, hname⟩ := ConstantPool.putText_grows _ hfits₂ hname
  obtain ⟨hle₄, hfits₄, hdescriptor⟩ := ConstantPool.putText_grows _ hfits₃ hdescriptor
  have hle := ConstantPool.le_trans hle₁
    (ConstantPool.le_trans hle₂ (ConstantPool.le_trans hle₃ hle₄))
  refine ⟨hle, hfits₄, rfl, fun owner => ?_⟩
  exact Member.keyIn_eq_ok.mpr ⟨rfl, ConstantPool.text_of_le hle₄ hname, hdescriptor⟩

/-- The table of bootstrap methods is found also when the attributes behind it are not looked at. -/
theorem find?_isBootstrapTable {pool : ConstantPool} {attributes : List Attribute}
    {found : Option Attribute}
    (h : Attribute.find? pool AttributeName.bootstrapMethods.text attributes = .ok found) :
    attributes.find? (isBootstrapTable pool) = found := by
  have hsort {attr : Attribute} {text : String} (hname : attr.nameIn pool = .ok text) :
      isBootstrapTable pool attr = true ↔ text = AttributeName.bootstrapMethods.text := by
    constructor
    · intro hfound
      unfold isBootstrapTable at hfound
      split at hfound
      · rename_i hbootstraps
        exact Except.ok.inj (hname.symm.trans (Attribute.sort_eq_some_iff.mp hbootstraps))
      · cases hfound
    · rintro rfl
      rw [isBootstrapTable, Attribute.sort_eq_some_iff.mpr hname]
  induction attributes with
  | nil => exact Except.ok.inj h
  | cons attr attributes ih =>
    obtain ⟨text, htext, hrest⟩ := Attribute.find?_cons_eq_ok.mp h
    split at hrest
    · rename_i hname
      rw [List.find?_cons_of_pos ((hsort htext).mpr hname), hrest]
    · rename_i hname
      rw [List.find?_cons_of_neg fun h => hname ((hsort htext).mp h)]
      exact ih hrest

theorem uses_of_not_callsDynamically {code : Option Code} (hcode : copy.codeIn p = .ok code)
    (hnone : ∀ body, code = some body → ¬ CallsDynamically body.bytes)
    {table table' : List Bootstrap} {uses : List Use} (huses : copy.uses p table = .ok uses) :
    copy.uses p table' = .ok uses := by
  obtain ⟨code', hcode', huses⟩ := Member.uses_eq_ok.mp huses
  obtain rfl := Except.ok.inj (hcode.symm.trans hcode')
  refine Member.uses_eq_ok.mpr ⟨code, hcode, ?_⟩
  cases code with
  | none => exact huses
  | some body =>
    obtain ⟨instructions, options, hdecode, hoptions, huses⟩ := huses
    refine ⟨instructions, options, hdecode, ?_, huses⟩
    have hplain : ∀ instruction ∈ instructions, ∀ index,
        instruction.action ≠ .dynamicCall index := by
      intro instruction hmem index haction
      exact hnone body rfl ⟨instructions, hdecode, instruction, hmem, index, haction⟩
    apply ((List.forall₂_and_left _ _).mpr ⟨hplain, hoptions⟩).imp
    intro instruction use h
    obtain ⟨hplain, huse⟩ := h
    rw [Instruction.use?_eq_ok] at huse ⊢
    cases haction : instruction.action with
    | dynamicCall index => exact absurd haction (hplain index)
    | _ => simpa only [haction] using huse

theorem bootstraps_of_taken {base companion : ClassFile} {table : List Bootstrap}
    (hle : base.pool ≤ companion.pool) (htable : base.bootstraps = .ok table)
    (htaken : companion.attributes =
      (base.attributes.find? (isBootstrapTable companion.pool)).toList) :
    companion.bootstraps = .ok table := by
  obtain ⟨found, hfound, hread⟩ := ClassFile.bootstraps_eq_ok.mp htable
  replace hfound := Attribute.find?_of_le hle hfound
  refine ClassFile.bootstraps_eq_ok.mpr ⟨found, ?_, hread⟩
  rw [htaken, find?_isBootstrapTable hfound]
  cases found with
  | none => rfl
  | some attr =>
    have hname := (Attribute.of_find?_eq_some hfound).2
    exact Attribute.find?_cons_eq_ok.mpr ⟨_, hname, by rw [if_pos rfl]⟩

/-- What is known of the companion of a class named `owner`. -/
structure CompanionOf (analysis : Analysis) (base : ClassFile) (owner : String)
    (companion : ClassFile) : Prop where
  ofBase : base.name = .ok owner
  grows : base.pool ≤ companion.pool
  fits : companion.pool.Fits
  named : companion.name = .ok (companionName owner)
  fields : ∃ moving, base.fields.filterMapM (movingField? analysis base.pool owner) = .ok moving ∧
    List.Forall₂ (fun field copy => CopiedField companion.pool field.2 field.1 copy) moving
      companion.fields
  constructor : ∃ first, companion.methods = first :: companion.methods.tail ∧
    HiddenConstructor companion.pool first
  methods : ∃ moving,
    base.methods.filterMapM (movingMethod? analysis base.pool owner) = .ok moving ∧
      List.Forall₂ (fun method copy => CopiedMethod owner companion.pool method copy ∧
        SameCode companion.pool method copy) moving companion.methods.tail
  uses : ∃ table table', base.bootstraps = .ok table ∧ companion.bootstraps = .ok table' ∧
    ∀ copy ∈ companion.methods.tail, ∀ uses, copy.uses companion.pool table = .ok uses →
      copy.uses companion.pool table' = .ok uses

theorem mem_movingMethods {methods moving : List Member}
    (h : methods.filterMapM (movingMethod? analysis p owner) = .ok moving) :
    method ∈ moving ↔
      method ∈ methods ∧ ∃ key, method.keyIn owner p = .ok key ∧ key ∈ analysis.methods := by
  simp only [mem_of_filterMapM h, movingMethod?, except_bind_eq_ok, except_pure_eq_ok,
    Std.ExtTreeMap.contains_iff_mem]
  constructor
  · rintro ⟨method', hmem, key, hkey, hmoves⟩
    split at hmoves
    · rename_i hmapped
      obtain rfl := Option.some.inj hmoves
      exact ⟨hmem, key, hkey, hmapped⟩
    · cases hmoves
  · rintro ⟨hmem, key, hkey, hmapped⟩
    exact ⟨method, hmem, key, hkey, if_pos hmapped⟩

theorem companionOf_of_companion {base companion : ClassFile} (hfits : base.pool.Fits)
    (h : base.companion analysis = .ok (some companion)) :
    ∃ owner, CompanionOf analysis base owner companion := by
  simp only [ClassFile.companion, except_bind_eq_ok, lift_class_eq_ok] at h
  obtain ⟨owner, howner, fields, hfields, methods, hmethods, h⟩ := h
  split at h
  · simp at h
  simp only [except_bind_eq_ok, except_pure_eq_ok, Option.some.injEq, Prod.exists, runOn_eq_ok,
    build, state_bind_eq_ok, lift_change_eq_ok, state_lift_eq_ok, lift_class_eq_ok,
    state_get_eq_ok, state_pure_eq_ok] at h
  obtain ⟨_, _, ⟨thisClass, p₁, hthis, superClass, p₂, hsuper, copiedFields, p₃, hcopiedFields,
    first, p₄, hfirst, table, _, ⟨htable, rfl⟩, copies, p₅, hcopies, _, _, ⟨rfl, rfl⟩, rfl, rfl⟩,
    rfl⟩ := h
  obtain ⟨hle₁, hfits₁, hname⟩ := ConstantPool.putClass_grows _ hfits hthis
  obtain ⟨hle₂, hfits₂, -⟩ := ConstantPool.putClass_grows _ hfits₁ hsuper
  obtain ⟨hle₃, hfits₃, hcopiedFields⟩ := ConstantPool.mapM_grows
    (R := fun (field : Member × MemberKey) copy pool => CopiedField pool field.2 field.1 copy)
    (fun _ _ _ _ hle h => h.of_le hle) (fun field => copyField_grows field.1 field.2) fields
    hfits₂ hcopiedFields
  obtain ⟨hle₄, hfits₄, hfirst⟩ := constructor_grows hfits₃ hfirst
  obtain ⟨hle₅, hfits₅, hcopies⟩ := ConstantPool.mapM_grows
    (R := fun method copy pool => CheckedCopy owner pool method copy)
    (fun _ _ _ _ hle h => h.of_le hle) copyMethod_grows methods hfits₄ hcopies
  have hlate := ConstantPool.le_trans hle₄ hle₅
  have hnamed := ConstantPool.le_trans hle₂ (ConstantPool.le_trans hle₃ hlate)
  have hle := ConstantPool.le_trans hle₁ hnamed
  refine ⟨owner, howner, hle, hfits₅, ?_, ⟨fields, hfields, ?_⟩, ⟨first, rfl, hfirst.of_le hle₅⟩,
    ⟨methods, hmethods, ?_⟩, ?_⟩
  · exact mapError_eq_ok.mpr (ConstantPool.className_of_le hnamed hname)
  · apply hcopiedFields.imp
    intro field copy hcopy
    exact hcopy.of_le hlate
  · refine List.forall₂_map_right_iff.mpr (hcopies.imp fun method copy hcopy => ?_)
    obtain ⟨code, hcode, -⟩ := hcopy.marked
    exact ⟨hcopy.copied, hcopy.copied.sameCode hcode⟩
  · by_cases hsites : copies.any Prod.snd
    · refine ⟨table, table, htable, ?_, fun _ _ _ h => h⟩
      exact bootstraps_of_taken hle htable (if_pos hsites)
    · refine ⟨table, [], htable, ?_, ?_⟩
      · simp [ClassFile.bootstraps, hsites, Attribute.find?]
      · intro copy hcopy uses huses
        obtain ⟨copied, hmem, rfl⟩ := List.mem_map.mp hcopy
        obtain ⟨method, -, hcopied⟩ := forall₂_mem_right hcopies hmem
        obtain ⟨code, hcode, hmarked⟩ := hcopied.marked
        have hnone : ∀ body, code = some body → ¬ CallsDynamically body.bytes := by
          intro body hbody hcalls
          exact hsites (List.any_eq_true.mpr ⟨copied, hmem, hmarked body hbody hcalls⟩)
        exact uses_of_not_callsDynamically hcode hnone huses

end Companion

end StaticCompanion
