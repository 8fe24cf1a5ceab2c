import StaticCompanion.Proofs.Omitted
import StaticCompanion.Proofs.Reading
import StaticCompanion.Proofs.TextChanges
import StaticCompanion.Proofs.TurnedClass
import StaticCompanion.Run.Output

/-!
# Passes over the attributes of a class

A class is adapted in three passes. Each of them goes over all attributes of the class and of its
members one by one: an attribute goes, or another one takes its place. A pass is described by what
it may make of a single attribute, and passes that follow each other by what one makes of what the
other has left.
-/
namespace StaticCompanion

/-- What may become of an attribute. -/
abbrev AttributePass := Attribute → Option Attribute → Prop

namespace AttributePass

/-- A pass that replaces every attribute by another one. -/
def replacing (R : Attribute → Attribute → Prop) : AttributePass := fun attr last =>
  ∃ attr', last = some attr' ∧ R attr attr'

def andThen (first second : AttributePass) : AttributePass := fun attr last =>
  ∃ middle, first attr middle ∧
    match middle with
    | some attr' => second attr' last
    | none => last = none

/-- What is left of a list of attributes, in the order of the list. -/
def OnList (pass : AttributePass) (attributes attributes' : List Attribute) : Prop :=
  ∃ options, List.Forall₂ pass attributes options ∧ attributes' = options.reduceOption

variable {first second pass : AttributePass} {attributes attributes' last : List Attribute}

theorem OnList.of_forall₂ {R : Attribute → Attribute → Prop}
    (h : List.Forall₂ R attributes attributes') :
    (replacing R).OnList attributes attributes' := by
  refine ⟨attributes'.map some, ?_, ?_⟩
  · rw [List.forall₂_map_right_iff]
    exact h.imp fun _ attr' hattr => ⟨attr', rfl, hattr⟩
  · simp [List.reduceOption]

theorem OnList.andThen (h : first.OnList attributes attributes')
    (h' : second.OnList attributes' last) : (first.andThen second).OnList attributes last := by
  obtain ⟨options, hoptions, rfl⟩ := h
  obtain ⟨options', hoptions', rfl⟩ := h'
  induction hoptions generalizing options' with
  | nil =>
    cases hoptions'
    exact ⟨[], .nil, rfl⟩
  | @cons attr middle attributes options hfirst _ ih =>
    cases middle with
    | none =>
      rw [List.reduceOption_cons_of_none] at hoptions'
      obtain ⟨lasts, hlasts, hleft⟩ := ih options' hoptions'
      refine ⟨none :: lasts, .cons ⟨none, hfirst, rfl⟩ hlasts, ?_⟩
      rw [hleft, List.reduceOption_cons_of_none]
    | some attr' =>
      rw [List.reduceOption_cons_of_some] at hoptions'
      cases hoptions' with
      | @cons _ last _ options' hsecond hrest =>
        obtain ⟨lasts, hlasts, hleft⟩ := ih options' hrest
        refine ⟨last :: lasts, .cons ⟨some attr', hfirst, hsecond⟩ hlasts, ?_⟩
        cases last <;> simp [hleft]

theorem OnList.imp (himp : ∀ attr last, first attr last → second attr last)
    (h : first.OnList attributes attributes') : second.OnList attributes attributes' := by
  obtain ⟨options, hoptions, rfl⟩ := h
  exact ⟨options, hoptions.imp himp, rfl⟩

theorem OnList.exists_of_mem (h : pass.OnList attributes attributes') {attr' : Attribute}
    (hmem : attr' ∈ attributes') : ∃ attr ∈ attributes, pass attr (some attr') := by
  obtain ⟨options, hoptions, rfl⟩ := h
  exact forall₂_mem_right hoptions (List.reduceOption_mem_iff.mp hmem)

end AttributePass

open Omission (Place)

/-- The member keeps its flags and its name, and its attributes are what a pass leaves of them. -/
structure Member.PassedBy (pass : AttributePass) (member member' : Member) : Prop where
  flags : member'.flags = member.flags
  name : member'.name = member.name
  attributes : pass.OnList member.attributes member'.attributes

/-- The class keeps its header and its members in their order, and the attributes in each place are
what a pass leaves of them. -/
structure ClassFile.PassedBy (pass : Place → AttributePass) (file file' : ClassFile) : Prop where
  minorVersion : file'.minorVersion = file.minorVersion
  majorVersion : file'.majorVersion = file.majorVersion
  flags : file'.flags = file.flags
  thisClass : file'.thisClass = file.thisClass
  superClass : file'.superClass = file.superClass
  interfaces : file'.interfaces = file.interfaces
  fields : List.Forall₂ (Member.PassedBy (pass .field)) file.fields file'.fields
  methods : List.Forall₂ (Member.PassedBy (pass .method)) file.methods file'.methods
  attributes : (pass .class).OnList file.attributes file'.attributes

section PassedBy
variable {first second : AttributePass} {member member₁ member₂ : Member}
  {passes passes' : Place → AttributePass} {file file₁ file₂ : ClassFile}

theorem Member.PassedBy.andThen (h : Member.PassedBy first member member₁)
    (h' : Member.PassedBy second member₁ member₂) :
    Member.PassedBy (first.andThen second) member member₂ :=
  ⟨h'.flags.trans h.flags, h'.name.trans h.name, h.attributes.andThen h'.attributes⟩

theorem Member.PassedBy.imp (himp : ∀ attr last, first attr last → second attr last)
    (h : Member.PassedBy first member member₁) : Member.PassedBy second member member₁ :=
  ⟨h.flags, h.name, h.attributes.imp himp⟩

theorem ClassFile.PassedBy.andThen (h : file.PassedBy passes file₁)
    (h' : file₁.PassedBy passes' file₂) :
    file.PassedBy (fun place => (passes place).andThen (passes' place)) file₂ where
  minorVersion := h'.minorVersion.trans h.minorVersion
  majorVersion := h'.majorVersion.trans h.majorVersion
  flags := h'.flags.trans h.flags
  thisClass := h'.thisClass.trans h.thisClass
  superClass := h'.superClass.trans h.superClass
  interfaces := h'.interfaces.trans h.interfaces
  fields := (forall₂_comp h.fields h'.fields).imp fun _ _ hfield => by
    obtain ⟨_, hfirst, hsecond⟩ := hfield
    exact hfirst.andThen hsecond
  methods := (forall₂_comp h.methods h'.methods).imp fun _ _ hmethod => by
    obtain ⟨_, hfirst, hsecond⟩ := hmethod
    exact hfirst.andThen hsecond
  attributes := h.attributes.andThen h'.attributes

theorem ClassFile.PassedBy.imp
    (himp : ∀ place attr last, passes place attr last → passes' place attr last)
    (h : file.PassedBy passes file₁) : file.PassedBy passes' file₁ where
  minorVersion := h.minorVersion
  majorVersion := h.majorVersion
  flags := h.flags
  thisClass := h.thisClass
  superClass := h.superClass
  interfaces := h.interfaces
  fields := h.fields.imp fun _ _ hfield => hfield.imp (himp .field)
  methods := h.methods.imp fun _ _ hmethod => hmethod.imp (himp .method)
  attributes := h.attributes.imp (himp .class)

end PassedBy

namespace Omission

def pass (omitted : NameSet) (pool : ConstantPool) (place : Place) : AttributePass :=
  fun attr last => filterAttribute omitted pool place attr = .ok last

variable {omitted : NameSet} {file filtered : ClassFile}

theorem passedBy_of_filterMember {pool : ConstantPool} {place : Place} {member member' : Member}
    (h : filterMember omitted pool place member = .ok member') :
    Member.PassedBy (pass omitted pool place) member member' := by
  have hheader := sameHeader_of_filterMember h
  simp only [filterMember, filterAttributes, except_bind_eq_ok, except_pure_eq_ok] at h
  obtain ⟨attributes, hattributes, rfl⟩ := h
  exact ⟨hheader.flags, hheader.name, except_filterMapM_eq_ok.mp hattributes⟩

theorem passedBy_of_omitAnnotations (h : file.omitAnnotations omitted = .ok filtered) :
    file.PassedBy (pass omitted file.pool) filtered := by
  simp only [ClassFile.omitAnnotations, except_bind_eq_ok, except_pure_eq_ok] at h
  obtain ⟨attributes, hattributes, fields, hfields, methods, hmethods, rfl⟩ := h
  refine ⟨rfl, rfl, rfl, rfl, rfl, rfl, ?_, ?_, except_filterMapM_eq_ok.mp hattributes⟩
  · exact (except_mapM_eq_ok.mp hfields).imp fun _ _ => passedBy_of_filterMember
  · exact (except_mapM_eq_ok.mp hmethods).imp fun _ _ => passedBy_of_filterMember

end Omission

namespace Retarget

/-- Code is turned, and so is the table of bootstrap methods; other attributes stay. -/
def pass (analysis : Analysis) (owners : Option NameSet) (pool : ConstantPool) :
    Place → AttributePass
  | .method => .replacing (TurnedAttribute analysis owners pool)
  | .class => .replacing fun attr attr' => attr' = attr ∨ attr'.name = attr.name ∧
      attr.nameIn pool = .ok AttributeName.bootstrapMethods.text
  | .field | .code => .replacing fun attr attr' => attr' = attr

variable {analysis : Analysis} {owners : Option NameSet} {file turned : ClassFile}

theorem TurnedClass.passedBy (h : TurnedClass analysis owners file turned) :
    file.PassedBy (pass analysis owners turned.pool) turned := by
  have hfields : List.Forall₂ (Member.PassedBy (pass analysis owners turned.pool .field))
      file.fields turned.fields := by
    rw [h.fields, List.forall₂_same]
    intro field _
    exact ⟨rfl, rfl, .of_forall₂ (List.forall₂_same.mpr fun _ _ => rfl)⟩
  have hmethods : List.Forall₂ (Member.PassedBy (pass analysis owners turned.pool .method))
      file.methods turned.methods := by
    apply h.methods.imp
    intro method method' hmethod
    exact ⟨hmethod.flags, hmethod.name, .of_forall₂ hmethod.attributes⟩
  have hattributes := AttributePass.OnList.of_forall₂ h.attributes
  rw [h.rest] at hfields hmethods hattributes ⊢
  exact ⟨rfl, rfl, rfl, rfl, rfl, rfl, hfields, hmethods, hattributes⟩

end Retarget

namespace TypeSubstitution

/-- An attribute stays, or the texts of types that it refers to are related ones. -/
def pass (R : TextRelation) (pool : ConstantPool) (place : Place) : AttributePass :=
  .replacing fun attr attr' => attr' = attr ∨
    match place with
    | .class | .field => RelatedSignature pool R attr attr'
    | .method => RelatedMethodAttribute pool R attr attr'
    | .code => RelatedCodeAttribute pool R attr attr'

variable {R : TextRelation} {file file' : ClassFile}

theorem passedBy_self (R : TextRelation) (file : ClassFile) :
    file.PassedBy (pass R file.pool) file := by
  have hself (place : Place) (attributes : List Attribute) :
      (pass R file.pool place).OnList attributes attributes :=
    .of_forall₂ (List.forall₂_same.mpr fun _ _ => .inl rfl)
  refine ⟨rfl, rfl, rfl, rfl, rfl, rfl, ?_, ?_, hself .class _⟩
  · exact List.forall₂_same.mpr fun field _ => ⟨rfl, rfl, hself .field _⟩
  · exact List.forall₂_same.mpr fun method _ => ⟨rfl, rfl, hself .method _⟩

theorem RelatedMember.passedBy {S : Attribute → Attribute → Prop} {member member' : Member}
    (h : RelatedMember R S member member') :
    Member.PassedBy (.replacing fun attr attr' => attr' = attr ∨ S attr attr') member member' := by
  obtain ⟨type, attributes, rfl, -, hattributes⟩ := h
  exact ⟨rfl, rfl, .of_forall₂ (hattributes.imp fun _ _ => Or.inr)⟩

theorem RelatedClass.passedBy (h : RelatedClass R file file') :
    file.PassedBy (pass R file'.pool) file' := by
  have hfields := h.fields.imp fun _ _ hfield => RelatedMember.passedBy hfield
  have hmethods := h.methods.imp fun _ _ hmethod => RelatedMember.passedBy hmethod
  have hattributes : (pass R file'.pool .class).OnList file.attributes file'.attributes :=
    .of_forall₂ (h.attributes.imp fun _ _ => Or.inr)
  rw [h.header] at hfields hmethods hattributes ⊢
  exact ⟨rfl, rfl, rfl, rfl, rfl, rfl, hfields, hmethods, hattributes⟩

end TypeSubstitution

/-- Every constant is in its place in the second pool, up to the types that it names. -/
def ConstantPool.KeepsPlaces (p q : ConstantPool) : Prop :=
  ∀ (i : UInt16) (entry : Entry), p.entry i = .ok entry →
    ∃ entry', q.entry i = .ok entry' ∧
      TypeSubstitution.RelatedEntry (fun _ _ _ => True) entry entry'

namespace ConstantPool
variable {p q r : ConstantPool}

theorem keepsPlaces_of_le (hle : p ≤ q) : p.KeepsPlaces q := by
  intro i entry hentry
  exact ⟨entry, entry_of_le hle hentry, .refl (fun _ _ => trivial) entry⟩

theorem keepsPlaces_of_le_left (hle : p ≤ q) (h : q.KeepsPlaces r) : p.KeepsPlaces r :=
  fun i entry hentry => h i entry (entry_of_le hle hentry)

theorem KeepsPlaces.text (h : p.KeepsPlaces q) {i : UInt16} {text : String}
    (htext : p.text i = .ok text) : q.text i = .ok text := by
  obtain ⟨_, hentry, rfl⟩ := h i _ (text_eq_ok.mp htext)
  exact text_eq_ok.mpr hentry

theorem KeepsPlaces.nameIn (h : p.KeepsPlaces q) {attr : Attribute} {name : String}
    (hname : attr.nameIn p = .ok name) : attr.nameIn q = .ok name :=
  Attribute.nameIn_eq_ok.mpr (h.text (Attribute.nameIn_eq_ok.mp hname))

theorem KeepsPlaces.sort (h : p.KeepsPlaces q) {attr : Attribute} {sort : Option AttributeName}
    (hsort : attr.sort p = .ok sort) : attr.sort q = .ok sort := by
  simp only [Attribute.sort, except_bind_eq_ok] at hsort ⊢
  obtain ⟨name, hname, hsort⟩ := hsort
  exact ⟨name, h.nameIn hname, hsort⟩

end ConstantPool

section Adaptation
variable (options : Options) (analysis : Analysis) (p pool q : ConstantPool) (place : Place)

/-- What becomes of an attribute when moved members are followed, which leaves the second pool, and
then types are replaced, which leaves the third one. -/
def rewriting : AttributePass :=
  (Retarget.pass analysis options.owners pool place).andThen <|
    TypeSubstitution.pass (TypeSubstitution.Changed analysis.replacementType q) q place

/-- What becomes of an attribute when a class is adapted. -/
def adaptation : AttributePass :=
  (Omission.pass options.omitted p place).andThen (rewriting options analysis pool q place)

end Adaptation

section Adapted
variable {file adapted : ClassFile} {options : Options} {analysis : Analysis}

theorem ClassFile.stages_of_adapt (hfits : file.pool.Fits)
    (h : file.adapt options analysis = .ok adapted) : ∃ filtered turned,
      file.omitAnnotations options.omitted = .ok filtered ∧ filtered.pool = file.pool ∧
      Retarget.TurnedClass analysis options.owners filtered turned ∧
      turned.replaceTypes analysis = .ok adapted := by
  simp only [ClassFile.adapt, except_bind_eq_ok] at h
  obtain ⟨filtered, hfiltered, turned, hturned, hreplaced⟩ := h
  have hpool := (Omission.omittedClass_of_omitAnnotations hfiltered).pool
  exact ⟨filtered, turned, hfiltered, hpool,
    Retarget.turnedClass_of_retarget (hpool ▸ hfits) hturned, hreplaced⟩

theorem ClassFile.passedBy_of_adapt (hfits : file.pool.Fits)
    (h : file.adapt options analysis = .ok adapted) :
    ∃ pool, file.pool ≤ pool ∧ pool.KeepsPlaces adapted.pool ∧
      file.PassedBy (adaptation options analysis file.pool pool adapted.pool) adapted := by
  obtain ⟨filtered, turned, hfiltered, hpool, hturned, hreplaced⟩ := stages_of_adapt hfits h
  have hfirst := Omission.passedBy_of_omitAnnotations hfiltered
  refine ⟨turned.pool, hpool ▸ hturned.grows, ?_⟩
  rcases related_of_replaceTypes hturned.fits hreplaced with ⟨-, rfl⟩ | ⟨-, -, hrelated⟩
  · exact ⟨ConstantPool.keepsPlaces_of_le (ConstantPool.le_refl _),
      hfirst.andThen (hturned.passedBy.andThen (TypeSubstitution.passedBy_self _ _))⟩
  · refine ⟨?_, hfirst.andThen (hturned.passedBy.andThen hrelated.passedBy)⟩
    intro i entry hentry
    obtain ⟨entry', hentry', hentries⟩ := hrelated.entry hentry
    exact ⟨entry', hentry', hentries.imp fun _ _ _ _ => trivial⟩

end Adapted

section Readback
open TypeSubstitution
variable {R : TextRelation} {options : Options} {analysis : Analysis} {file adapted : ClassFile}

theorem TypeSubstitution.RelatedEntry.shape {entry entry' : Entry}
    (h : RelatedEntry R entry entry') :
    entry'.slots = entry.slots ∧ (entry.Canonical → entry'.Canonical) := by
  unfold RelatedEntry at h
  split at h
  · obtain ⟨name', rfl, -⟩ := h
    exact ⟨rfl, id⟩
  · obtain ⟨type', rfl, -⟩ := h
    exact ⟨rfl, id⟩
  · obtain ⟨type', rfl, -⟩ := h
    exact ⟨rfl, id⟩
  · subst h
    exact ⟨rfl, id⟩

theorem TypeSubstitution.exists_rows {entries : List Entry} {slots : List Slot}
    (hcanonical : ∀ entry ∈ entries, entry.Canonical)
    (h : List.Forall₂ (RelatedSlot R) (entries.flatMap Entry.row) slots) :
    ∃ entries' : List Entry, (∀ entry ∈ entries', entry.Canonical) ∧
      slots = entries'.flatMap Entry.row := by
  induction entries generalizing slots with
  | nil =>
    cases h
    exact ⟨[], by simp, rfl⟩
  | cons entry entries ih =>
    rw [List.forall_mem_cons] at hcanonical
    rw [List.flatMap_cons, Entry.row, List.cons_append] at h
    obtain ⟨slot, slots₁, ⟨entry', rfl, hentry⟩, hrest, rfl⟩ := List.forall₂_cons_left_iff.mp h
    obtain ⟨hsize, hkept⟩ := hentry.shape
    have hrow (slots₂ : List Slot) (htail : slots₁ = (if entry.slots = 2 then [.gap] else []) ++
        slots₂) (hslots₂ : List.Forall₂ (RelatedSlot R) (entries.flatMap Entry.row) slots₂) :
        ∃ entries' : List Entry, (∀ entry ∈ entries', entry.Canonical) ∧
          .entry entry' :: slots₁ = entries'.flatMap Entry.row := by
      obtain ⟨entries', hcanonical', rfl⟩ := ih hcanonical.2 hslots₂
      refine ⟨entry' :: entries', ?_, ?_⟩
      · exact List.forall_mem_cons.mpr ⟨hkept hcanonical.1, hcanonical'⟩
      · rw [List.flatMap_cons, Entry.row, hsize, List.cons_append, htail]
    by_cases htwo : entry.slots = 2
    · simp only [htwo, if_true, List.singleton_append] at hrest hrow
      obtain ⟨_, slots₂, rfl, hslots₂, rfl⟩ := List.forall₂_cons_left_iff.mp hrest
      exact hrow slots₂ rfl hslots₂
    · simp only [if_neg htwo, List.nil_append] at hrest hrow
      exact hrow slots₁ rfl hrest

theorem TypeSubstitution.RelatedClass.empty_le {replaced : ClassFile}
    (h : RelatedClass R file replaced) (hpool : ConstantPool.empty ≤ file.pool) :
    ConstantPool.empty ≤ replaced.pool := by
  obtain ⟨entries, hcanonical, hentries⟩ := hpool
  obtain ⟨slots, texts, hslots, hrelated⟩ := h.slots
  have hfirst : ConstantPool.Gains ⟨slots.toArray⟩ replaced.pool := ⟨texts, by simpa using hslots⟩
  refine ConstantPool.le_trans ?_ hfirst.le
  rw [hentries] at hrelated
  obtain ⟨_, slots', rfl, hrows, rfl⟩ := List.forall₂_cons_left_iff.mp hrelated
  obtain ⟨entries', hcanonical', rfl⟩ := exists_rows hcanonical hrows
  exact ⟨entries', hcanonical', rfl⟩

/-- What is written of an adapted class is read back as that class. -/
theorem ClassFile.ofBytes_of_adapt {bytes : Bytes} (hpool : ConstantPool.empty ≤ file.pool)
    (hfits : file.pool.Fits) (hadapt : file.adapt options analysis = .ok adapted)
    (hwrite : adapted.toBytes = .ok bytes) : ClassFile.ofBytes bytes = .ok adapted := by
  obtain ⟨filtered, turned, -, hsame, hturned, hreplaced⟩ := stages_of_adapt hfits hadapt
  have hpool' : ConstantPool.empty ≤ turned.pool :=
    ConstantPool.le_trans hpool (hsame ▸ hturned.grows)
  rcases related_of_replaceTypes hturned.fits hreplaced with ⟨-, rfl⟩ | ⟨-, hfits', hrelated⟩
  · exact ClassFile.ofBytes_of_toBytes hpool' hturned.fits hwrite
  · exact ClassFile.ofBytes_of_toBytes (hrelated.empty_le hpool') hfits' hwrite

end Readback

end StaticCompanion
