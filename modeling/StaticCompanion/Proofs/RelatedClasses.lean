import StaticCompanion.Proofs.Attributes
import StaticCompanion.Proofs.Descriptors
import StaticCompanion.Relocation.TypeSubstitution

/-!
# Classes that differ in the texts of types

What a class looks like once its types are replaced is told by a relation between the indices of
texts, lifted to constants, attributes, members and the whole class. Related parts differ in the
texts of their types only.
-/
namespace StaticCompanion

def ConstantPool.textSlot (text : String) : Slot := .entry (.utf8 (.valid text))

namespace TypeSubstitution
open ConstantPool

/-- What a text is read as. -/
inductive TextKind where
  | className
  | descriptor
  | signature

/-- How the texts of a kind are changed. -/
def TextKind.change (names : Renaming) : TextKind → TextChange
  | className => TypeSubstitution.className names
  | descriptor => TypeSubstitution.descriptor names
  | signature => TypeSubstitution.signature names

section Texts
variable {names : Renaming} {text changed : String}

theorem head?_of_method {method : MethodDescriptor}
    (h : MethodDescriptor.ofDescriptor text = .ok method) : text.toList.head? = some '(' := by
  obtain ⟨rest, htext, -⟩ := MethodDescriptor.ofDescriptor_eq_ok.mp h
  rw [htext, List.head?_cons]

theorem head?_of_field {type : FieldType} (h : FieldType.ofDescriptor text = .ok type) :
    text.toList.head? ≠ some '(' ∧
      (text.toList.head? = some '[' ↔ ∃ element, type = .array element) := by
  rw [← FieldType.descriptor_of_ofDescriptor h, FieldType.descriptor, String.toList_ofList]
  cases type with
  | primitive type => cases type <;> simp [FieldType.chars, Primitive.letter]
  | object name => simp [FieldType.chars]
  | array element => simp [FieldType.chars]

theorem descriptor_eq_ok : descriptor names text = .ok changed ↔
    (∃ method, MethodDescriptor.ofDescriptor text = .ok method ∧
      (method.rename names).descriptor = changed) ∨
    ∃ type, FieldType.ofDescriptor text = .ok type ∧ (type.rename names).descriptor = changed := by
  unfold descriptor
  split
  · rename_i hhead
    simp only [except_bind_eq_ok, except_pure_eq_ok]
    refine ⟨.inl, ?_⟩
    rintro (hmethod | ⟨type, htype, -⟩)
    · exact hmethod
    · exact absurd hhead (head?_of_field htype).1
  · rename_i hhead
    simp only [except_bind_eq_ok, except_pure_eq_ok]
    refine ⟨.inr, ?_⟩
    rintro (⟨method, hmethod, -⟩ | htype)
    · exact absurd (head?_of_method hmethod) hhead
    · exact htype

theorem className_eq_ok : className names text = .ok changed ↔
    (∃ element, FieldType.ofDescriptor text = .ok (.array element) ∧
      ((FieldType.array element).rename names).descriptor = changed) ∨
    (text.toList.head? ≠ some '[' ∧ names.apply text = changed) := by
  unfold className
  split
  · rename_i hhead
    rw [descriptor_eq_ok]
    constructor
    · rintro (⟨method, hmethod, -⟩ | ⟨type, htype, rfl⟩)
      · cases hhead.symm.trans (head?_of_method hmethod)
      · obtain ⟨element, rfl⟩ := (head?_of_field htype).2.mp hhead
        exact .inl ⟨element, htype, rfl⟩
    · rintro (⟨element, helement⟩ | ⟨hne, -⟩)
      · exact .inr ⟨.array element, helement⟩
      · exact absurd hhead hne
  · rename_i hhead
    constructor
    · intro h
      exact .inr ⟨hhead, Except.ok.inj h⟩
    · rintro (⟨element, helement, -⟩ | ⟨-, rfl⟩)
      · exact absurd ((head?_of_field helement).2.mpr ⟨element, rfl⟩) hhead
      · rfl

end Texts

/-- A relation between the indices of texts of the same kind. -/
abbrev TextRelation := TextKind → UInt16 → UInt16 → Prop

/-- The second index leads to the changed form of the text that the first one leads to. -/
def Changed (names : Renaming) (pool : ConstantPool) : TextRelation := fun kind i i' =>
  ∃ text changed, pool.text i = .ok text ∧ kind.change names text = .ok changed ∧
    pool.text i' = .ok changed

section Related
variable (pool : ConstantPool) (R : TextRelation)

def RelatedEntry : Entry → Entry → Prop
  | .class name, entry => ∃ name', entry = .class name' ∧ R .className name name'
  | .nameAndType name type, entry =>
    ∃ type', entry = .nameAndType name type' ∧ R .descriptor type type'
  | .methodType type, entry => ∃ type', entry = .methodType type' ∧ R .descriptor type type'
  | entry, entry' => entry' = entry

def RelatedSlot : Slot → Slot → Prop
  | .entry entry, slot => ∃ entry', slot = .entry entry' ∧ RelatedEntry R entry entry'
  | .gap, slot => slot = .gap

/-- Two attributes of the same name hold values that are related. -/
def RelatedPayload {α : Type} (format : Format α) (S : α → α → Prop) (attr attr' : Attribute) :
    Prop :=
  attr'.name = attr.name ∧ ∃ value value', format.decode attr.info = .ok value ∧
    format.decode attr'.info = .ok value' ∧ S value value'

/-- Attributes other than signatures are the same. -/
def RelatedSignature (attr attr' : Attribute) : Prop :=
  ∃ sort, attr.sort pool = .ok sort ∧
    if sort = some .signature then RelatedPayload Format.u16 (R .signature) attr attr'
    else attr' = attr

def RelatedTable (kind : TextKind) : Attribute → Attribute → Prop :=
  RelatedPayload LocalVariable.tableFormat <| List.Forall₂ fun var var' =>
    ∃ type, var' = { var with type } ∧ R kind var.type type

/-- Attributes of code other than the tables of local variables are the same. -/
def RelatedCodeAttribute (attr attr' : Attribute) : Prop :=
  ∃ sort, attr.sort pool = .ok sort ∧
    match sort with
    | some .localVariableTable => RelatedTable R .descriptor attr attr'
    | some .localVariableTypeTable => RelatedTable R .signature attr attr'
    | _ => attr' = attr

def RelatedBody (code code' : Code) : Prop :=
  ∃ attributes, code' = { code with attributes } ∧
    List.Forall₂ (RelatedCodeAttribute pool R) code.attributes attributes

/-- Attributes other than code are the same. -/
def RelatedCode (attr attr' : Attribute) : Prop :=
  ∃ sort, attr.sort pool = .ok sort ∧
    if sort = some .code then RelatedPayload Code.format (RelatedBody pool R) attr attr'
    else attr' = attr

/-- Attributes of methods other than signatures and code are the same. -/
def RelatedMethodAttribute (attr attr' : Attribute) : Prop :=
  ∃ sort, attr.sort pool = .ok sort ∧
    match sort with
    | some .signature => RelatedPayload Format.u16 (R .signature) attr attr'
    | some .code => RelatedPayload Code.format (RelatedBody pool R) attr attr'
    | _ => attr' = attr

/-- Only the descriptor and the attributes differ, and those as related. -/
def RelatedMember (S : Attribute → Attribute → Prop) (member member' : Member) : Prop :=
  ∃ type attributes, member' = { member with descriptor := type, attributes } ∧
    R .descriptor member.descriptor type ∧ List.Forall₂ S member.attributes attributes

def RelatedField : Member → Member → Prop := RelatedMember R (RelatedSignature pool R)

def RelatedMethod : Member → Member → Prop := RelatedMember R (RelatedMethodAttribute pool R)

end Related

theorem RelatedEntry.imp {R R' : TextRelation} (hR : ∀ kind i i', R kind i i' → R' kind i i')
    {entry entry' : Entry} (h : RelatedEntry R entry entry') : RelatedEntry R' entry entry' := by
  cases entry with
  | «class» name =>
    obtain ⟨name', rfl, hname⟩ := h
    exact ⟨name', rfl, hR _ _ _ hname⟩
  | nameAndType name type =>
    obtain ⟨type', rfl, htype⟩ := h
    exact ⟨type', rfl, hR _ _ _ htype⟩
  | methodType type =>
    obtain ⟨type', rfl, htype⟩ := h
    exact ⟨type', rfl, hR _ _ _ htype⟩
  | _ => exact h

theorem RelatedSlot.imp {R R' : TextRelation} (hR : ∀ kind i i', R kind i i' → R' kind i i')
    {slot slot' : Slot} (h : RelatedSlot R slot slot') : RelatedSlot R' slot slot' := by
  cases slot with
  | entry entry =>
    obtain ⟨entry', rfl, hentry⟩ := h
    exact ⟨entry', rfl, hentry.imp hR⟩
  | gap => exact h

/-- The second class is the first one with related texts of types and with further texts. -/
structure RelatedClass (R : TextRelation) (file file' : ClassFile) : Prop where
  header : file' = { file with
    pool := file'.pool, fields := file'.fields, methods := file'.methods,
    attributes := file'.attributes }
  slots : ∃ (slots : List Slot) (texts : List String),
    file'.pool.slots.toList = slots ++ texts.map textSlot ∧
    List.Forall₂ (RelatedSlot R) file.pool.slots.toList slots
  attributes : List.Forall₂ (RelatedSignature file'.pool R) file.attributes file'.attributes
  fields : List.Forall₂ (RelatedField file'.pool R) file.fields file'.fields
  methods : List.Forall₂ (RelatedMethod file'.pool R) file.methods file'.methods

section Entries
variable {R : TextRelation} {file file' : ClassFile}

theorem RelatedEntry.refl (hR : ∀ kind i, R kind i i) (entry : Entry) :
    RelatedEntry R entry entry := by
  cases entry with
  | «class» name => exact ⟨name, rfl, hR _ _⟩
  | nameAndType name type => exact ⟨type, rfl, hR _ _⟩
  | methodType type => exact ⟨type, rfl, hR _ _⟩
  | _ => rfl

theorem RelatedClass.slot (h : RelatedClass R file file') {i : Nat} {slot : Slot}
    (hslot : file.pool.slots[i]? = some slot) :
    ∃ slot', file'.pool.slots[i]? = some slot' ∧ RelatedSlot R slot slot' := by
  obtain ⟨slots, texts, hslots, hrelated⟩ := h.slots
  rw [← Array.getElem?_toList] at hslot
  obtain ⟨hi, rfl⟩ := List.getElem?_eq_some_iff.mp hslot
  have hi' : i < slots.length := hrelated.length_eq ▸ hi
  refine ⟨slots[i], ?_, hrelated.get hi hi'⟩
  rw [← Array.getElem?_toList, hslots, List.getElem?_append_left hi',
    List.getElem?_eq_getElem hi']

theorem RelatedClass.entry (h : RelatedClass R file file') {i : UInt16} {entry : Entry}
    (hentry : file.pool.entry i = .ok entry) :
    ∃ entry', file'.pool.entry i = .ok entry' ∧ RelatedEntry R entry entry' := by
  obtain ⟨_, hslot, entry', rfl, hrelated⟩ := h.slot (entry_eq_ok.mp hentry)
  exact ⟨entry', entry_eq_ok.mpr hslot, hrelated⟩

theorem RelatedClass.text (h : RelatedClass R file file') {i : UInt16} {text : String}
    (htext : file.pool.text i = .ok text) : file'.pool.text i = .ok text := by
  obtain ⟨_, hentry, rfl⟩ := h.entry (text_eq_ok.mp htext)
  exact text_eq_ok.mpr hentry

end Entries

section Settle
variable {pool : ConstantPool} {R S : TextRelation}

theorem forall₂_settle {α β : Type} {R : α → β → Prop} {S : β → β → Prop}
    (hRS : ∀ a b, R a b → S b b) {as : List α} {bs : List β} (h : List.Forall₂ R as bs) :
    List.Forall₂ S bs bs := by
  refine List.forall₂_same.mpr fun b hb => ?_
  obtain ⟨a, -, hab⟩ := forall₂_mem_right h hb
  exact hRS a b hab

theorem RelatedPayload.settle {α : Type} {format : Format α} {Q Q' : α → α → Prop}
    (hQ : ∀ value value', Q value value' → Q' value' value') {attr attr' : Attribute}
    (h : RelatedPayload format Q attr attr') : RelatedPayload format Q' attr' attr' := by
  obtain ⟨-, value, value', -, hdecode, hrelated⟩ := h
  exact ⟨rfl, value', value', hdecode, hdecode, hQ _ _ hrelated⟩

variable (hRS : ∀ kind i i', R kind i i' → S kind i' i')
include hRS

theorem RelatedEntry.settle {entry entry' : Entry} (h : RelatedEntry R entry entry') :
    RelatedEntry S entry' entry' := by
  cases entry with
  | «class» name =>
    obtain ⟨name', rfl, hname⟩ := h
    exact ⟨name', rfl, hRS _ _ _ hname⟩
  | nameAndType name type =>
    obtain ⟨type', rfl, htype⟩ := h
    exact ⟨type', rfl, hRS _ _ _ htype⟩
  | methodType type =>
    obtain ⟨type', rfl, htype⟩ := h
    exact ⟨type', rfl, hRS _ _ _ htype⟩
  | _ =>
    obtain rfl := h
    rfl

theorem RelatedSlot.settle {slot slot' : Slot} (h : RelatedSlot R slot slot') :
    RelatedSlot S slot' slot' := by
  cases slot with
  | entry entry =>
    obtain ⟨entry', rfl, hentry⟩ := h
    exact ⟨entry', rfl, hentry.settle hRS⟩
  | gap =>
    obtain rfl := h
    rfl

theorem RelatedSignature.settle {attr attr' : Attribute} (h : RelatedSignature pool R attr attr') :
    RelatedSignature pool S attr' attr' := by
  obtain ⟨sort, hsort, h⟩ := h
  split at h
  · rename_i hsignature
    refine ⟨sort, (Attribute.sort_of_name h.1).trans hsort, ?_⟩
    rw [if_pos hsignature]
    exact h.settle (hRS .signature)
  · rename_i hother
    obtain rfl := h
    exact ⟨sort, hsort, by rw [if_neg hother]⟩

theorem RelatedTable.settle {kind : TextKind} {attr attr' : Attribute}
    (h : RelatedTable R kind attr attr') : RelatedTable S kind attr' attr' := by
  refine RelatedPayload.settle (fun _ _ => forall₂_settle ?_) h
  rintro var _ ⟨type, rfl, htype⟩
  exact ⟨type, rfl, hRS _ _ _ htype⟩

theorem RelatedCodeAttribute.settle {attr attr' : Attribute}
    (h : RelatedCodeAttribute pool R attr attr') : RelatedCodeAttribute pool S attr' attr' := by
  obtain ⟨sort, hsort, h⟩ := h
  split at h
  · exact ⟨_, (Attribute.sort_of_name h.1).trans hsort, RelatedTable.settle hRS h⟩
  · exact ⟨_, (Attribute.sort_of_name h.1).trans hsort, RelatedTable.settle hRS h⟩
  · rename_i hother hother'
    obtain rfl := h
    refine ⟨sort, hsort, ?_⟩
    split
    · exact absurd rfl hother
    · exact absurd rfl hother'
    · rfl

theorem RelatedBody.settle {code code' : Code} (h : RelatedBody pool R code code') :
    RelatedBody pool S code' code' := by
  obtain ⟨attributes, rfl, hattributes⟩ := h
  exact ⟨attributes, rfl, forall₂_settle (fun _ _ => RelatedCodeAttribute.settle hRS) hattributes⟩

theorem RelatedMethodAttribute.settle {attr attr' : Attribute}
    (h : RelatedMethodAttribute pool R attr attr') : RelatedMethodAttribute pool S attr' attr' := by
  obtain ⟨sort, hsort, h⟩ := h
  split at h
  · exact ⟨_, (Attribute.sort_of_name h.1).trans hsort, h.settle (hRS .signature)⟩
  · exact ⟨_, (Attribute.sort_of_name h.1).trans hsort,
      h.settle fun _ _ => RelatedBody.settle hRS⟩
  · rename_i hother hother'
    obtain rfl := h
    refine ⟨sort, hsort, ?_⟩
    split
    · exact absurd rfl hother
    · exact absurd rfl hother'
    · rfl

theorem RelatedMember.settle {Q Q' : Attribute → Attribute → Prop}
    (hQ : ∀ attr attr', Q attr attr' → Q' attr' attr') {member member' : Member}
    (h : RelatedMember R Q member member') : RelatedMember S Q' member' member' := by
  obtain ⟨type, attributes, rfl, htype, hattributes⟩ := h
  exact ⟨type, attributes, rfl, hRS _ _ _ htype, forall₂_settle hQ hattributes⟩

/-- A class that is related to another one by texts that stay is related to itself by them. -/
theorem RelatedClass.settle {file file' : ClassFile} (h : RelatedClass R file file') :
    RelatedClass S file' file' where
  header := rfl
  slots := by
    obtain ⟨slots, texts, hslots, hrelated⟩ := h.slots
    refine ⟨file'.pool.slots.toList, [], (List.append_nil _).symm, ?_⟩
    have htexts : List.Forall₂ (RelatedSlot S) (texts.map textSlot) (texts.map textSlot) := by
      rw [List.forall₂_map_left_iff, List.forall₂_map_right_iff, List.forall₂_same]
      exact fun _ _ => ⟨_, rfl, rfl⟩
    rw [hslots]
    exact List.rel_append (forall₂_settle (fun _ _ => RelatedSlot.settle hRS) hrelated) htexts
  attributes := forall₂_settle (fun _ _ => RelatedSignature.settle hRS) h.attributes
  fields := forall₂_settle
    (fun _ _ => RelatedMember.settle hRS fun _ _ => RelatedSignature.settle hRS) h.fields
  methods := forall₂_settle
    (fun _ _ => RelatedMember.settle hRS fun _ _ => RelatedMethodAttribute.settle hRS) h.methods

end Settle

section Self
variable {pool : ConstantPool} {R : TextRelation} {file : ClassFile}

theorem RelatedPayload.self {α : Type} {format : Format α} {S : α → α → Prop} {attr : Attribute}
    {value : α} (h : RelatedPayload format S attr attr)
    (hdecode : format.decode attr.info = .ok value) : S value value := by
  obtain ⟨-, value₁, value₂, hdecode₁, hdecode₂, hrelated⟩ := h
  obtain rfl := Except.ok.inj (hdecode.symm.trans hdecode₁)
  obtain rfl := Except.ok.inj (hdecode.symm.trans hdecode₂)
  exact hrelated

theorem RelatedTable.self {kind : TextKind} {attr : Attribute} {table : List LocalVariable}
    (h : RelatedTable R kind attr attr)
    (hdecode : LocalVariable.tableFormat.decode attr.info = .ok table) {var : LocalVariable}
    (hvar : var ∈ table) : R kind var.type var.type := by
  obtain ⟨type, hsame, htype⟩ := List.forall₂_same.mp (RelatedPayload.self h hdecode) var hvar
  obtain rfl := congrArg LocalVariable.type hsame
  exact htype

theorem RelatedBody.self {code : Code} (h : RelatedBody pool R code code) {attr : Attribute}
    (hattr : attr ∈ code.attributes) : RelatedCodeAttribute pool R attr attr := by
  obtain ⟨attributes, hsame, hattributes⟩ := h
  obtain rfl := congrArg Code.attributes hsame
  exact List.forall₂_same.mp hattributes attr hattr

theorem RelatedMember.self {S : Attribute → Attribute → Prop} {member : Member}
    (h : RelatedMember R S member member) : R .descriptor member.descriptor member.descriptor ∧
      ∀ attr ∈ member.attributes, S attr attr := by
  obtain ⟨type, attributes, hsame, htype, hattributes⟩ := h
  obtain rfl := congrArg Member.descriptor hsame
  obtain rfl := congrArg Member.attributes hsame
  exact ⟨htype, List.forall₂_same.mp hattributes⟩

theorem RelatedMethodAttribute.self {attr : Attribute}
    (h : RelatedMethodAttribute pool R attr attr) :
    RelatedSignature pool R attr attr ∧ RelatedCode pool R attr attr := by
  obtain ⟨sort, hsort, h⟩ := h
  split at h
  · exact ⟨⟨_, hsort, by rwa [if_pos rfl]⟩, ⟨_, hsort, by rw [if_neg (by decide)]⟩⟩
  · exact ⟨⟨_, hsort, by rw [if_neg (by decide)]⟩, ⟨_, hsort, by rwa [if_pos rfl]⟩⟩
  · rename_i hsignature hcode
    exact ⟨⟨sort, hsort, by rw [if_neg hsignature]⟩, ⟨sort, hsort, by rw [if_neg hcode]⟩⟩

theorem mem_slots_of_entry {i : UInt16} {entry : Entry} (h : pool.entry i = .ok entry) :
    .entry entry ∈ pool.slots.toList := by
  rw [entry_eq_ok, ← Array.getElem?_toList] at h
  exact List.mem_of_getElem? h

theorem RelatedClass.entry_self (h : RelatedClass R file file) {entry : Entry}
    (hentry : .entry entry ∈ file.pool.slots.toList) : RelatedEntry R entry entry := by
  obtain ⟨i, hi⟩ := List.mem_iff_getElem?.mp hentry
  rw [Array.getElem?_toList] at hi
  obtain ⟨_, hi', _, rfl, hrelated⟩ := h.slot hi
  obtain rfl := Slot.entry.inj (Option.some.inj (hi.symm.trans hi'))
  exact hrelated

end Self

end TypeSubstitution

end StaticCompanion
