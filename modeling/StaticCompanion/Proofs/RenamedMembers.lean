import StaticCompanion.Proofs.TextChanges

/-!
# One renaming of members

Replacing the types of a class renames the members that it refers to and those that it declares in
the same way, though references and declarations are changed at different places. So a reference of
one class still meets the declaration of another one, once the types of both are replaced.
-/
namespace StaticCompanion
open ConstantPool TypeSubstitution

namespace Renaming
variable {names : Renaming} {text changed : String}

/-- The descriptor with each of its classes renamed. -/
def descriptorImage (names : Renaming) (text : String) : String :=
  match MethodDescriptor.ofDescriptor text, FieldType.ofDescriptor text with
  | .ok method, _ => (method.rename names).descriptor
  | .error _, .ok type => (type.rename names).descriptor
  | .error _, .error _ => text

/-- The renamed class; a class of arrays is renamed in its elements. -/
def classImage (names : Renaming) (text : String) : String :=
  match FieldType.ofDescriptor text with
  | .ok (.array element) => ((FieldType.array element).rename names).descriptor
  | _ => names.apply text

theorem descriptorImage_of_change (h : descriptor names text = .ok changed) :
    names.descriptorImage text = changed := by
  rcases descriptor_eq_ok.mp h with ⟨method, hmethod, rfl⟩ | ⟨type, htype, rfl⟩
  · rw [descriptorImage, hmethod]
  · cases hmethod : MethodDescriptor.ofDescriptor text with
    | ok method => exact absurd (head?_of_method hmethod) (head?_of_field htype).1
    | error fault => rw [descriptorImage, hmethod, htype]

theorem classImage_of_change (h : className names text = .ok changed) :
    names.classImage text = changed := by
  rcases className_eq_ok.mp h with ⟨element, helement, rfl⟩ | ⟨hhead, rfl⟩
  · rw [classImage, helement]
  · unfold classImage
    split
    · rename_i element helement
      exact absurd ((head?_of_field helement).2.mpr ⟨element, rfl⟩) hhead
    · rfl

theorem descriptorImage_eq_self (h : ∀ name, names name = none) :
    names.descriptorImage text = text := by
  unfold descriptorImage
  split
  · rename_i method _ hmethod
    rw [MethodDescriptor.rename_eq_self fun name _ => h name]
    exact MethodDescriptor.descriptor_of_ofDescriptor hmethod
  · rename_i type _ htype
    rw [FieldType.rename_eq_self fun name _ => h name]
    exact FieldType.descriptor_of_ofDescriptor htype
  · rfl

theorem classImage_eq_self (h : ∀ name, names name = none) : names.classImage text = text := by
  unfold classImage
  split
  · rename_i element helement
    rw [FieldType.rename_eq_self fun name _ => h name]
    exact FieldType.descriptor_of_ofDescriptor helement
  · rw [apply, h, Option.getD_none]

end Renaming

/-- The key of the member that a member becomes when types are replaced. -/
def MemberKey.renamed (names : Renaming) (key : MemberKey) : MemberKey where
  owner := names.classImage key.owner
  name := key.name
  descriptor := names.descriptorImage key.descriptor

/-- The texts of a class entry, or of a descriptor, become their images. -/
def Images (names : Renaming) (p q : ConstantPool) : TextRelation := fun kind i i' =>
  ∀ text, p.text i = .ok text → match kind with
    | .className => q.text i' = .ok (names.classImage text)
    | .descriptor => q.text i' = .ok (names.descriptorImage text)
    | .signature => True

def Entry.UsesType : Entry → Prop
  | .class _ | .nameAndType _ _ | .methodType _ => True
  | _ => False

namespace ClassFile

/-- The member is the same one under its new key. -/
def DeclaresImage (names : Renaming) (file renamed : ClassFile) (member member' : Member) : Prop :=
  member'.flags = member.flags ∧ member'.name = member.name ∧
    ∀ owner key, file.name = .ok owner → member.keyIn owner file.pool = .ok key →
      ∃ owner', renamed.name = .ok owner' ∧
        member'.keyIn owner' renamed.pool = .ok (key.renamed names)

/-- The class refers to the members with the new keys and declares those, and is otherwise as it
was. -/
structure RenamedBy (names : Renaming) (file renamed : ClassFile) : Prop where
  className : ∀ {i name}, file.pool.className i = .ok name →
    renamed.pool.className i = .ok (names.classImage name)
  nameAndType : ∀ {i j k type}, file.pool.entry i = .ok (.nameAndType j k) →
    file.pool.text k = .ok type → ∃ k', renamed.pool.entry i = .ok (.nameAndType j k') ∧
      renamed.pool.text k' = .ok (names.descriptorImage type)
  methodType : ∀ {i j type}, file.pool.entry i = .ok (.methodType j) →
    file.pool.text j = .ok type → ∃ j', renamed.pool.entry i = .ok (.methodType j') ∧
      renamed.pool.text j' = .ok (names.descriptorImage type)
  member : ∀ {kind i key}, file.pool.Refers kind i key →
    renamed.pool.Refers kind i (key.renamed names)
  fields : List.Forall₂ (DeclaresImage names file renamed) file.fields renamed.fields
  methods : List.Forall₂ (DeclaresImage names file renamed) file.methods renamed.methods
  other : ∀ {i entry}, file.pool.entry i = .ok entry → ¬entry.UsesType →
    renamed.pool.entry i = .ok entry
  /-- Nothing but texts comes behind the slots that were there. -/
  slots : ∃ (slots : List Slot) (texts : List String),
    renamed.pool.slots.toList = slots ++ texts.map textSlot ∧
    List.Forall₂ (fun slot slot' => slot = .gap → slot' = .gap) file.pool.slots.toList slots

/-- Each constant of the first class that is or has a type is readable in the second one. -/
structure TypesReadable (file renamed : ClassFile) : Prop where
  className : ∀ {i j}, file.pool.entry i = .ok (.class j) →
    ∃ name, renamed.pool.className i = .ok name
  nameAndType : ∀ {i j k}, file.pool.entry i = .ok (.nameAndType j k) →
    ∃ k' type, renamed.pool.entry i = .ok (.nameAndType j k') ∧ renamed.pool.text k' = .ok type
  methodType : ∀ {i j}, file.pool.entry i = .ok (.methodType j) →
    ∃ j' type, renamed.pool.entry i = .ok (.methodType j') ∧ renamed.pool.text j' = .ok type

/-- The reference of the one class with this index leads to the member at this position of the
other class. -/
def LinksTo (members : ClassFile → List Member) (user declarer : ClassFile) (index : UInt16)
    (position : Nat) : Prop :=
  ∃ owner member key, declarer.name = .ok owner ∧ (members declarer)[position]? = some member ∧
    member.keyIn owner declarer.pool = .ok key ∧ user.pool.member index = .ok key

/-- The member has another descriptor and is otherwise the same. -/
def RenamedMember (names : Renaming) (p q : ConstantPool) (member member' : Member) : Prop :=
  member'.flags = member.flags ∧ member'.name = member.name ∧
    Images names p q .descriptor member.descriptor member'.descriptor

/-- What changes, constant by constant and member by member. -/
structure RenamedParts (names : Renaming) (file renamed : ClassFile) : Prop where
  thisClass : renamed.thisClass = file.thisClass
  entry : ∀ {i entry}, file.pool.entry i = .ok entry → ∃ entry',
    renamed.pool.entry i = .ok entry' ∧
      RelatedEntry (Images names file.pool renamed.pool) entry entry'
  slots : ∃ (slots : List Slot) (texts : List String),
    renamed.pool.slots.toList = slots ++ texts.map textSlot ∧
    List.Forall₂ (fun slot slot' => slot = .gap → slot' = .gap) file.pool.slots.toList slots
  fields : List.Forall₂ (RenamedMember names file.pool renamed.pool) file.fields renamed.fields
  methods : List.Forall₂ (RenamedMember names file.pool renamed.pool) file.methods renamed.methods

variable {names : Renaming} {file renamed : ClassFile}

theorem renamedParts_self (hnames : ∀ name, names name = none) :
    RenamedParts names file file := by
  have himages (kind : TextKind) (i : UInt16) : Images names file.pool file.pool kind i i := by
    intro text htext
    cases kind with
    | className => exact (names.classImage_eq_self hnames).symm ▸ htext
    | descriptor => exact (names.descriptorImage_eq_self hnames).symm ▸ htext
    | signature => trivial
  have hmember (member : Member) : RenamedMember names file.pool file.pool member member :=
    ⟨rfl, rfl, himages .descriptor _⟩
  exact {
    thisClass := rfl
    entry := fun hentry => ⟨_, hentry, RelatedEntry.refl himages _⟩
    slots := ⟨_, [], (List.append_nil _).symm, List.forall₂_same.mpr fun _ _ hgap => hgap⟩
    fields := List.forall₂_same.mpr fun field _ => hmember field
    methods := List.forall₂_same.mpr fun method _ => hmember method }

theorem renamedParts_of_related (h : RelatedClass (Changed names renamed.pool) file renamed) :
    RenamedParts names file renamed := by
  have himages (kind : TextKind) (i i' : UInt16) (hchanged : Changed names renamed.pool kind i i') :
      Images names file.pool renamed.pool kind i i' := by
    obtain ⟨text, changed, htext, hchange, hchanged⟩ := hchanged
    intro text' htext'
    obtain rfl := Except.ok.inj (htext.symm.trans (h.text htext'))
    cases kind with
    | className => exact (Renaming.classImage_of_change hchange).symm ▸ hchanged
    | descriptor => exact (Renaming.descriptorImage_of_change hchange).symm ▸ hchanged
    | signature => trivial
  have hmember {S : Attribute → Attribute → Prop} {member member' : Member}
      (hrelated : RelatedMember (Changed names renamed.pool) S member member') :
      RenamedMember names file.pool renamed.pool member member' := by
    obtain ⟨type, attributes, rfl, htype, -⟩ := hrelated
    exact ⟨rfl, rfl, himages _ _ _ htype⟩
  refine {
    thisClass := by rw [h.header]
    entry := fun hentry => ?_
    slots := ?_
    fields := h.fields.imp fun _ _ => hmember
    methods := h.methods.imp fun _ _ => hmember }
  · obtain ⟨entry', hentry', hrelated⟩ := h.entry hentry
    exact ⟨entry', hentry', hrelated.imp himages⟩
  · obtain ⟨slots, texts, hslots, hrelated⟩ := h.slots
    refine ⟨slots, texts, hslots, hrelated.imp ?_⟩
    rintro _ _ hslot rfl
    exact hslot

namespace RenamedParts
variable (h : RenamedParts names file renamed)
include h

theorem other {i : UInt16} {entry : Entry} (hentry : file.pool.entry i = .ok entry)
    (htype : ¬entry.UsesType) : renamed.pool.entry i = .ok entry := by
  obtain ⟨entry', hentry', hrelated⟩ := h.entry hentry
  cases entry with
  | «class» => exact absurd trivial htype
  | nameAndType => exact absurd trivial htype
  | methodType => exact absurd trivial htype
  | _ => exact hrelated ▸ hentry'

theorem text {i : UInt16} {text : String} (htext : file.pool.text i = .ok text) :
    renamed.pool.text i = .ok text :=
  text_eq_ok.mpr (h.other (text_eq_ok.mp htext) id)

theorem className {i : UInt16} {name : String} (hname : file.pool.className i = .ok name) :
    renamed.pool.className i = .ok (names.classImage name) := by
  obtain ⟨j, hentry, htext⟩ := className_eq_ok.mp hname
  obtain ⟨_, hentry', j', rfl, himage⟩ := h.entry hentry
  exact className_eq_ok.mpr ⟨j', hentry', himage name htext⟩

theorem nameAndType {i j k : UInt16} {type : String}
    (hentry : file.pool.entry i = .ok (.nameAndType j k)) (htype : file.pool.text k = .ok type) :
    ∃ k', renamed.pool.entry i = .ok (.nameAndType j k') ∧
      renamed.pool.text k' = .ok (names.descriptorImage type) := by
  obtain ⟨_, hentry', k', rfl, himage⟩ := h.entry hentry
  exact ⟨k', hentry', himage type htype⟩

theorem methodType {i j : UInt16} {type : String}
    (hentry : file.pool.entry i = .ok (.methodType j)) (htype : file.pool.text j = .ok type) :
    ∃ j', renamed.pool.entry i = .ok (.methodType j') ∧
      renamed.pool.text j' = .ok (names.descriptorImage type) := by
  obtain ⟨_, hentry', j', rfl, himage⟩ := h.entry hentry
  exact ⟨j', hentry', himage type htype⟩

theorem member {kind : RefKind} {i : UInt16} {key : MemberKey}
    (hrefers : file.pool.Refers kind i key) :
    renamed.pool.Refers kind i (key.renamed names) := by
  obtain ⟨owner, nameAndType, hentry⟩ := hrefers.entry
  obtain ⟨_, _, _, hentry', howner, hpair⟩ := member_eq_ok.mp hrefers.member
  obtain ⟨rfl, rfl, rfl⟩ := Entry.memberRef.inj (Except.ok.inj (hentry.symm.trans hentry'))
  obtain ⟨j, k, hpair, hname, htype⟩ := nameAndType_eq_ok.mp hpair
  obtain ⟨k', hpair', htype'⟩ := h.nameAndType hpair htype
  have hkept := h.other hentry id
  exact ⟨⟨_, _, hkept⟩, member_eq_ok.mpr ⟨_, _, _, hkept, h.className howner,
    nameAndType_eq_ok.mpr ⟨j, k', hpair', h.text hname, htype'⟩⟩⟩

theorem declares {member member' : Member}
    (hmember : RenamedMember names file.pool renamed.pool member member') :
    DeclaresImage names file renamed member member' := by
  obtain ⟨hflags, hname, himage⟩ := hmember
  refine ⟨hflags, hname, fun owner key howner hkey => ?_⟩
  obtain ⟨rfl, hkeyName, htype⟩ := Member.keyIn_eq_ok.mp hkey
  refine ⟨names.classImage key.owner, ?_, Member.keyIn_eq_ok.mpr ⟨rfl, ?_, himage _ htype⟩⟩
  · have howner' := h.className (mapError_eq_ok.mp howner)
    rw [← h.thisClass] at howner'
    exact mapError_eq_ok.mpr howner'
  · rw [hname]
    exact h.text hkeyName

theorem renamedBy : RenamedBy names file renamed where
  className := h.className
  nameAndType := h.nameAndType
  methodType := h.methodType
  member := h.member
  fields := h.fields.imp fun _ _ => h.declares
  methods := h.methods.imp fun _ _ => h.declares
  other := h.other
  slots := h.slots

end RenamedParts

/-- References and declarations are renamed alike, so they meet again. -/
theorem LinksTo.of_renamedBy {members : ClassFile → List Member}
    {user user' declarer declarer' : ClassFile} (huser : RenamedBy names user user')
    (hdeclarer : List.Forall₂ (DeclaresImage names declarer declarer') (members declarer)
      (members declarer')) {index : UInt16} {position : Nat}
    (hlinks : LinksTo members user declarer index position) :
    LinksTo members user' declarer' index position := by
  obtain ⟨owner, member, key, howner, hmember, hkey, hreference⟩ := hlinks
  obtain ⟨kind, j, k, hentry, -⟩ := member_eq_ok.mp hreference
  obtain ⟨hi, rfl⟩ := List.getElem?_eq_some_iff.mp hmember
  have hi' : position < (members declarer').length := hdeclarer.length_eq ▸ hi
  obtain ⟨-, -, hdeclares⟩ := hdeclarer.get hi hi'
  obtain ⟨owner', howner', hkey'⟩ := hdeclares owner key howner hkey
  exact ⟨owner', _, key.renamed names, howner', List.getElem?_eq_getElem hi', hkey',
    (huser.member ⟨⟨j, k, hentry⟩, hreference⟩).member⟩

theorem typesReadable_of_related (h : RelatedClass (Changed names renamed.pool) file renamed) :
    TypesReadable file renamed where
  className hentry := by
    obtain ⟨_, hentry', j', rfl, -, name, -, -, hname⟩ := h.entry hentry
    exact ⟨name, className_eq_ok.mpr ⟨j', hentry', hname⟩⟩
  nameAndType hentry := by
    obtain ⟨_, hentry', k', rfl, -, type, -, -, htype⟩ := h.entry hentry
    exact ⟨k', type, hentry', htype⟩
  methodType hentry := by
    obtain ⟨_, hentry', j', rfl, -, type, -, -, htype⟩ := h.entry hentry
    exact ⟨j', type, hentry', htype⟩

theorem renamedParts_of_replaceTypes {analysis : Analysis} (hfits : file.pool.Fits)
    (hrun : file.replaceTypes analysis = .ok renamed) :
    RenamedParts analysis.replacementType file renamed ∧
      (analysis.types.isEmpty = false → TypesReadable file renamed) := by
  rcases related_of_replaceTypes hfits hrun with ⟨hempty, rfl⟩ | ⟨-, -, hrelated⟩
  · have hnames (name : String) : analysis.replacementType name = none := by
      rw [Analysis.replacementType, Std.ExtTreeMap.isEmpty_iff.mp hempty]
      simp
    exact ⟨renamedParts_self hnames, fun htypes => absurd hempty (by simp [htypes])⟩
  · exact ⟨renamedParts_of_related hrelated, fun _ => typesReadable_of_related hrelated⟩

/-- Replacing types is one renaming of member keys. What the class refers to and what it declares
get the new keys, everything else stays, and so each reference to a member of another class, or of
the same one, leads to it again when that class has its types replaced as well. -/
theorem replaceTypes_renames {analysis : Analysis} {replaced : ClassFile}
    (hfits : file.pool.Fits) (hrun : file.replaceTypes analysis = .ok replaced) :
    RenamedBy analysis.replacementType file replaced ∧
      (analysis.types.isEmpty = false → TypesReadable file replaced) ∧
      ∀ {declarer declarer' : ClassFile}, declarer.pool.Fits →
        declarer.replaceTypes analysis = .ok declarer' → ∀ index position,
          (file.LinksTo fields declarer index position →
            replaced.LinksTo fields declarer' index position) ∧
          (file.LinksTo methods declarer index position →
            replaced.LinksTo methods declarer' index position) := by
  obtain ⟨hparts, hreadable⟩ := renamedParts_of_replaceTypes hfits hrun
  refine ⟨hparts.renamedBy, hreadable, fun hfits' hrun' index position => ?_⟩
  have hdeclarer := (renamedParts_of_replaceTypes hfits' hrun').1.renamedBy
  exact ⟨LinksTo.of_renamedBy hparts.renamedBy hdeclarer.fields,
    LinksTo.of_renamedBy hparts.renamedBy hdeclarer.methods⟩

/-- A class with a field of arrays and a method, and with references to a field and to a type. The
text of the field's descriptor is a string constant as well. -/
def keeper : ClassFile :=
  let text (s : String) : Slot := .entry (.utf8 (.valid s))
  { minorVersion := 0
    majorVersion := 52
    pool := ⟨#[.gap, text "p/User", .entry (.class 1), text "p/Old", .entry (.class 3), text "f",
      text "[Lp/Old;", .entry (.nameAndType 5 6), .entry (.memberRef .field 4 7),
      .entry (.string 6), .entry (.class 6), text "m", text "(Lp/Old;)V", .entry (.methodType 12),
      text AttributeName.signature.text, text "Lp/List<Lp/Old;>.Row;",
      text AttributeName.code.text, text AttributeName.localVariableTable.text]⟩
    flags := ⟨0x0021⟩
    thisClass := 2
    superClass := 0
    interfaces := []
    fields := [⟨⟨0x0001⟩, 5, 6, [⟨14, [0, 15]⟩]⟩]
    methods := [⟨⟨0x0001⟩, 11, 12, [⟨16, [0, 0, 0, 1, 0, 0, 0, 1, 0xB1, 0, 0, 0, 1, 0, 17, 0, 0, 0,
      12, 0, 1, 0, 0, 0, 1, 0, 5, 0, 6, 0, 0]⟩]⟩]
    attributes := [] }

/-- A type is replaced by another one, which is replaced itself. -/
def keeperTypes : Analysis :=
  { Analysis.empty with
    types := ((∅ : NameMap).insert "p/Old" "p/Next").insert "p/Next" "p/New" }

theorem renames_keeper : ∃ replaced, keeper.replaceTypes keeperTypes = .ok replaced ∧
    RenamedBy keeperTypes.replacementType keeper replaced ∧
    replaced.pool.entry 9 = .ok (.string 6) ∧ replaced.pool.text 6 = .ok "[Lp/Old;" ∧
    replaced.pool.member 8 = .ok ⟨"p/New", "f", "[Lp/New;"⟩ := by
  have hrun : (keeper.replaceTypes keeperTypes).toOption.isSome = true := by decide +kernel
  obtain ⟨replaced, hreplaced⟩ := Option.isSome_iff_exists.mp hrun
  have hrenamed := (replaceTypes_renames (by decide) (toOption_eq_some.mp hreplaced)).1
  have hmember : keeper.pool.Refers .field 8 ⟨"p/Old", "f", "[Lp/Old;"⟩ := ⟨⟨4, 7, rfl⟩, rfl⟩
  have hkey : MemberKey.renamed keeperTypes.replacementType ⟨"p/Old", "f", "[Lp/Old;"⟩ =
      ⟨"p/New", "f", "[Lp/New;"⟩ := by decide +kernel
  refine ⟨replaced, toOption_eq_some.mp hreplaced, hrenamed, hrenamed.other rfl id,
    text_eq_ok.mpr (hrenamed.other rfl id), ?_⟩
  rw [← hkey]
  exact (hrenamed.member hmember).member

end ClassFile

end StaticCompanion
