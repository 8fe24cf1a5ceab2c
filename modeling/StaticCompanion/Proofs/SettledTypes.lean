import StaticCompanion.Proofs.RenamedMembers
import StaticCompanion.Proofs.SignatureWriting

/-!
# Replacing types settles

Chains of replacements are followed to their ends, so a text that has been changed mentions no type
that has a replacement, and changing it again does nothing. This carries over from texts to the
whole class by the relation that a replacement leaves behind: what a class is related to is, with
texts that stay, related to itself.
-/
namespace StaticCompanion
open ConstantPool TypeSubstitution

/-! ### Chains -/

namespace Analysis
variable {analysis : Analysis}

theorem chainEnd_final {types : NameMap} {budget : Nat} {name last : String}
    (h : chainEnd types budget name = some last) : types[last]? = none := by
  induction budget generalizing name with
  | zero => cases h
  | succ budget ih =>
    unfold chainEnd at h
    split at h
    · exact ih h
    · rename_i hend
      exact Option.some.inj h ▸ hend

/-- The replacement of a type has no replacement itself. -/
theorem replacementType_final {old new : String} (h : analysis.replacementType old = some new) :
    analysis.replacementType new = none := by
  obtain ⟨next, -, hend⟩ := Option.bind_eq_some_iff.mp h
  rw [replacementType, chainEnd_final hend, Option.bind_none]

theorem chainEnd_mem {types : NameMap} {budget : Nat} {previous name last : String}
    (hname : types[previous]? = some name) (h : chainEnd types budget name = some last) :
    ∃ old : String, types[old]? = some last := by
  induction budget generalizing previous name with
  | zero => cases h
  | succ budget ih =>
    unfold chainEnd at h
    split at h
    · rename_i hnext
      exact ih hnext h
    · exact ⟨previous, Option.some.inj h ▸ hname⟩

theorem replacementType_mem {old new : String} (h : analysis.replacementType old = some new) :
    ∃ name : String, analysis.types[name]? = some new := by
  obtain ⟨next, hnext, hend⟩ := Option.bind_eq_some_iff.mp h
  exact chainEnd_mem hnext hend

end Analysis

/-! ### Texts -/

/-- The name can stand wherever a class is named. -/
def IsPlainName (name : String) : Prop :=
  name ≠ "" ∧ ∀ c ∈ name.toList, c ∉ [';', '<', '.', '[']

theorem IsPlainName.isObjectName {name : String} (h : IsPlainName name) : IsObjectName name :=
  ⟨h.1, fun hmem => h.2 _ hmem (by decide)⟩

theorem IsPlainName.isOuterName {name : String} (h : IsPlainName name) : IsOuterName name := by
  refine ⟨h.1, fun c hc => ?_⟩
  have hother := h.2 c hc
  simp only [List.mem_cons, not_or] at hother
  simp [endsClassName, hother.1, hother.2.1, hother.2.2.1]

/-- The new names are plain and have no replacements themselves. -/
structure Renaming.Settling (names : Renaming) : Prop where
  plain : ∀ {old new}, names old = some new → IsPlainName new
  final : ∀ {old new}, names old = some new → names new = none

namespace Renaming.Settling
variable {names : Renaming} (hnames : names.Settling)
include hnames

theorem final_apply (name : String) : names (names.apply name) = none := by
  cases hname : names name with
  | none => rwa [apply, hname, Option.getD_none]
  | some new =>
    rw [apply, hname, Option.getD_some]
    exact hnames.final hname

theorem final_mem_map {mentioned : List String} {name : String}
    (h : name ∈ mentioned.map names.apply) : names name = none := by
  obtain ⟨old, -, rfl⟩ := List.mem_map.mp h
  exact hnames.final_apply old

theorem isObjectName_map {mentioned : List String} (h : ∀ name ∈ mentioned, IsObjectName name) :
    ∀ name ∈ mentioned.map names.apply, IsObjectName name := by
  intro name hname
  obtain ⟨old, hold, rfl⟩ := List.mem_map.mp hname
  cases hnew : names old with
  | none => simpa [apply, hnew] using h old hold
  | some new => simpa [apply, hnew] using (hnames.plain hnew).isObjectName

end Renaming.Settling

namespace TypeSubstitution

/-- A text mentions a class by its name, as an object type of a descriptor, or as the outer class
of a class type of a signature. -/
inductive TextKind.Mentions : TextKind → String → String → Prop
  | className {text : String} (hhead : text.toList.head? ≠ some '[') : Mentions .className text text
  | arrayClass {text name : String} {type : FieldType}
      (hhead : text.toList.head? = some '[') (htype : FieldType.ofDescriptor text = .ok type)
      (hname : name ∈ type.classNames) : Mentions .className text name
  | field {text name : String} {type : FieldType} (htype : FieldType.ofDescriptor text = .ok type)
      (hname : name ∈ type.classNames) : Mentions .descriptor text name
  | method {text name : String} {method : MethodDescriptor}
      (hmethod : MethodDescriptor.ofDescriptor text = .ok method)
      (hname : name ∈ method.classNames) : Mentions .descriptor text name
  | signature {text name : String} {signature : Signature}
      (hsignature : Signature.parse text.toList = some signature)
      (hname : name ∈ signature.classNames) : Mentions .signature text name

/-- Changing the text does nothing, and what it mentions has no replacement. -/
structure TextKind.Settled (names : Renaming) (kind : TextKind) (text : String) : Prop where
  change : kind.change names text = .ok text
  mentions : ∀ name, kind.Mentions text name → names name = none

section Texts
variable {names : Renaming} (hnames : names.Settling)
include hnames

theorem field_reread {text : String} {type : FieldType}
    (h : FieldType.ofDescriptor text = .ok type) :
    FieldType.ofDescriptor (type.rename names).descriptor = .ok (type.rename names) ∧
      (type.rename names).rename names = type.rename names := by
  have hmentioned : (type.rename names).classNames = _ := type.classNames_rename
  refine ⟨FieldType.ofDescriptor_descriptor ?_, FieldType.rename_eq_self ?_⟩
  · rw [hmentioned]
    exact hnames.isObjectName_map (FieldType.isObjectName_of_ofDescriptor h)
  · rw [hmentioned]
    exact fun name => hnames.final_mem_map

theorem method_reread {text : String} {method : MethodDescriptor}
    (h : MethodDescriptor.ofDescriptor text = .ok method) :
    MethodDescriptor.ofDescriptor (method.rename names).descriptor = .ok (method.rename names) ∧
      (method.rename names).rename names = method.rename names := by
  have hmentioned : (method.rename names).classNames = _ := method.classNames_rename
  refine ⟨MethodDescriptor.ofDescriptor_descriptor ?_, MethodDescriptor.rename_eq_self ?_⟩
  · rw [hmentioned]
    exact hnames.isObjectName_map (MethodDescriptor.isObjectName_of_ofDescriptor h)
  · rw [hmentioned]
    exact fun name => hnames.final_mem_map

theorem signature_reread {text : List Char} {signature : Signature}
    (h : Signature.parse text = some signature) :
    Signature.parse (signature.rename names).chars = some (signature.rename names) ∧
      (signature.rename names).rename names = signature.rename names := by
  refine ⟨Signature.parse_chars ?_, Signature.rename_eq_self ?_⟩
  · exact (Signature.faithful_parse h).2.rename fun _ _ hnew => (hnames.plain hnew).isOuterName
  · rw [Signature.classNames_rename]
    exact fun name => hnames.final_mem_map

theorem settled_descriptor {text changed : String} (h : descriptor names text = .ok changed) :
    TextKind.descriptor.Settled names changed := by
  rcases descriptor_eq_ok.mp h with ⟨method, hmethod, rfl⟩ | ⟨type, htype, rfl⟩
  · obtain ⟨hread, hsame⟩ := method_reread hnames hmethod
    refine ⟨descriptor_eq_ok.mpr (.inl ⟨_, hread, by rw [hsame]⟩), ?_⟩
    intro name hmentions
    cases hmentions with
    | field htype => exact absurd (head?_of_method hread) (head?_of_field htype).1
    | method hmethod' hname =>
      -- What is mentioned is told by reading the new text, which gives the renamed tree.
      obtain rfl := Except.ok.inj (hread.symm.trans hmethod')
      rw [MethodDescriptor.classNames_rename] at hname
      exact hnames.final_mem_map hname
  · obtain ⟨hread, hsame⟩ := field_reread hnames htype
    refine ⟨descriptor_eq_ok.mpr (.inr ⟨_, hread, by rw [hsame]⟩), ?_⟩
    intro name hmentions
    cases hmentions with
    | field htype' hname =>
      obtain rfl := Except.ok.inj (hread.symm.trans htype')
      rw [FieldType.classNames_rename] at hname
      exact hnames.final_mem_map hname
    | method hmethod => exact absurd (head?_of_method hmethod) (head?_of_field hread).1

theorem settled_className {text changed : String} (h : className names text = .ok changed) :
    TextKind.className.Settled names changed := by
  rcases className_eq_ok.mp h with ⟨element, htype, rfl⟩ | ⟨hhead, rfl⟩
  · obtain ⟨hread, hsame⟩ := field_reread hnames htype
    refine ⟨className_eq_ok.mpr (.inl ⟨_, hread, congrArg FieldType.descriptor hsame⟩), ?_⟩
    intro name hmentions
    cases hmentions with
    | className hhead => exact absurd ((head?_of_field hread).2.mpr ⟨_, rfl⟩) hhead
    | arrayClass _ htype' hname =>
      obtain rfl := Except.ok.inj (hread.symm.trans htype')
      rw [FieldType.classNames_rename] at hname
      exact hnames.final_mem_map hname
  · have hnone := hnames.final_apply text
    -- A plain name has no bracket, so the new text is not read as a class of arrays.
    have hhead' : (names.apply text).toList.head? ≠ some '[' := by
      cases hnew : names text with
      | none => rwa [Renaming.apply, hnew, Option.getD_none]
      | some new =>
        rw [Renaming.apply, hnew, Option.getD_some]
        intro hbracket
        exact (hnames.plain hnew).2 _ (List.mem_of_head? hbracket) (by decide)
    refine ⟨className_eq_ok.mpr (.inr ⟨hhead', ?_⟩), ?_⟩
    · rw [Renaming.apply, hnone, Option.getD_none]
    · intro name hmentions
      cases hmentions with
      | className => exact hnone
      | arrayClass hhead => exact absurd hhead hhead'

theorem settled_signature {text changed : String} (h : signature names text = .ok changed) :
    TextKind.signature.Settled names changed := by
  unfold signature Signature.renameText at h
  split at h
  · rename_i tree htree
    obtain rfl := Except.ok.inj h
    obtain ⟨hread, hsame⟩ := signature_reread hnames htree
    refine ⟨?_, ?_⟩
    · change Signature.renameText names _ = _
      rw [Signature.renameText, Signature.render, String.toList_ofList, hread]
      exact congrArg (fun tree : Signature => Except.ok tree.render) hsame
    · intro name hmentions
      cases hmentions with
      | signature htree' hname =>
        rw [Signature.render, String.toList_ofList, hread] at htree'
        obtain rfl := Option.some.inj htree'
        rw [Signature.classNames_rename] at hname
        exact hnames.final_mem_map hname
  · cases h

/-- What a change gives stays, and it mentions no class that has a replacement. -/
theorem settled_of_change {kind : TextKind} {text changed : String}
    (h : kind.change names text = .ok changed) : kind.Settled names changed := by
  cases kind with
  | className => exact settled_className hnames h
  | descriptor => exact settled_descriptor hnames h
  | signature => exact settled_signature hnames h

end Texts

/-! ### Classes -/

/-- The text stays when it is changed, and mentions no class that has a replacement. -/
def Stays (names : Renaming) (pool : ConstantPool) : TextRelation := fun kind _ i =>
  ∃ text, pool.text i = .ok text ∧ kind.Settled names text

theorem stays_of_changed {names : Renaming} (hnames : names.Settling) {pool : ConstantPool}
    (kind : TextKind) (i i' : UInt16) (h : Changed names pool kind i i') :
    Stays names pool kind i' i' := by
  obtain ⟨_, changed, -, hchange, htext⟩ := h
  exact ⟨changed, htext, settled_of_change hnames hchange⟩

/-! ### A second replacement -/

section Repeat
variable {names : Renaming} {pool : ConstantPool}

theorem changeText_stays (kind : TextKind) {i i' : UInt16} (h : Stays names pool kind i' i) :
    changeText (kind.change names) i pool = .ok i pool := by
  obtain ⟨text, htext, hsettled⟩ := h
  simp only [changeText, state_bind_eq_ok, state_get_eq_ok, state_lift_eq_ok, lift_pool_eq_ok,
    lift_descriptor_eq_ok]
  refine ⟨_, _, ⟨rfl, rfl⟩, text, _, ⟨htext, rfl⟩, text, _, ⟨hsettled.change, rfl⟩, ?_⟩
  rw [if_pos rfl]
  rfl

theorem repoint_stays (kind : TextKind) {index i i' : UInt16} {constant : UInt16 → Entry}
    (h : Stays names pool kind i' i) :
    (do
      let changed ← changeText (kind.change names) i
      if changed ≠ i then ConstantPool.replace index (constant changed) : Relocation Unit) pool =
        .ok () pool := by
  refine state_bind_eq_ok.mpr ⟨i, pool, changeText_stays kind h, ?_⟩
  rw [if_neg (not_not.mpr rfl)]
  rfl

theorem changeEntry_stays (index : UInt16) {entry : Entry}
    (h : RelatedEntry (Stays names pool) entry entry) :
    changeEntry names index entry pool = .ok () pool := by
  cases entry with
  | «class» name =>
    obtain ⟨_, hsame, hname⟩ := h
    obtain rfl := Entry.class.inj hsame
    exact repoint_stays .className hname
  | nameAndType name type =>
    obtain ⟨_, hsame, htype⟩ := h
    obtain ⟨-, rfl⟩ := Entry.nameAndType.inj hsame
    exact repoint_stays .descriptor htype
  | methodType type =>
    obtain ⟨_, hsame, htype⟩ := h
    obtain rfl := Entry.methodType.inj hsame
    exact repoint_stays .descriptor htype
  | _ => rfl

theorem changeSignature_stays {attr : Attribute}
    (h : RelatedSignature pool (Stays names pool) attr attr) :
    changeSignature names attr pool = .ok attr pool := by
  obtain ⟨sort, hsort, h⟩ := h
  simp only [changeSignature, state_bind_eq_ok, state_get_eq_ok, state_lift_eq_ok,
    lift_class_eq_ok]
  refine ⟨_, _, ⟨rfl, rfl⟩, sort, _, ⟨hsort, rfl⟩, ?_⟩
  split
  · rfl
  · rename_i hsignature
    rw [if_pos (not_not.mp hsignature)] at h
    obtain ⟨i, -, hdecode, -⟩ := h.2
    simp only [state_bind_eq_ok, state_lift_eq_ok, lift_class_eq_ok]
    refine ⟨i, _, ⟨hdecode, rfl⟩, i, pool, changeText_stays .signature (h.self hdecode), ?_⟩
    rw [if_pos rfl]
    rfl

theorem changeTable_stays (kind : TextKind) {attr : Attribute}
    (h : RelatedTable (Stays names pool) kind attr attr) :
    changeTable (kind.change names) attr pool = .ok attr pool := by
  obtain ⟨table, -, hdecode, -⟩ := h.2
  have hvars : table.mapM (fun var => (do
      return { var with type := ← changeText (kind.change names) var.type } :
        Relocation LocalVariable)) pool = .ok table pool :=
    state_mapM_self fun var hvar =>
      state_bind_eq_ok.mpr ⟨_, pool, changeText_stays kind (h.self hdecode hvar), rfl⟩
  simp only [changeTable, state_bind_eq_ok, state_lift_eq_ok, lift_class_eq_ok]
  refine ⟨table, _, ⟨hdecode, rfl⟩, table, pool, hvars, ?_⟩
  rw [if_pos rfl]
  rfl

theorem changeCodeAttribute_stays {attr : Attribute}
    (h : RelatedCodeAttribute pool (Stays names pool) attr attr) :
    changeCodeAttribute names attr pool = .ok attr pool := by
  obtain ⟨sort, hsort, h⟩ := h
  simp only [changeCodeAttribute, state_bind_eq_ok, state_get_eq_ok, state_lift_eq_ok,
    lift_class_eq_ok]
  refine ⟨_, _, ⟨rfl, rfl⟩, sort, _, ⟨hsort, rfl⟩, ?_⟩
  split
  · exact changeTable_stays .descriptor h
  · exact changeTable_stays .signature h
  · rfl

theorem changeCode_stays {attr : Attribute} (h : RelatedCode pool (Stays names pool) attr attr) :
    changeCode names attr pool = .ok attr pool := by
  obtain ⟨sort, hsort, h⟩ := h
  simp only [changeCode, state_bind_eq_ok, state_get_eq_ok, state_lift_eq_ok, lift_class_eq_ok]
  refine ⟨_, _, ⟨rfl, rfl⟩, sort, _, ⟨hsort, rfl⟩, ?_⟩
  split
  · rfl
  · rename_i hcode
    rw [if_pos (not_not.mp hcode)] at h
    obtain ⟨code, -, hdecode, -⟩ := h.2
    have hstay : code.attributes.mapM (changeCodeAttribute names) pool = .ok code.attributes pool :=
      state_mapM_self fun attr hattr => changeCodeAttribute_stays ((h.self hdecode).self hattr)
    simp only [state_bind_eq_ok, state_lift_eq_ok, lift_class_eq_ok]
    refine ⟨code, _, ⟨hdecode, rfl⟩, code.attributes, pool, hstay, ?_⟩
    rw [if_pos rfl]
    rfl

theorem changeField_stays {Q : Attribute → Attribute → Prop} {member : Member}
    (hQ : ∀ attr, Q attr attr → RelatedSignature pool (Stays names pool) attr attr)
    (h : RelatedMember (Stays names pool) Q member member) :
    changeField names member pool = .ok member pool := by
  obtain ⟨htype, hattributes⟩ := h.self
  have hstay : member.attributes.mapM (changeSignature names) pool =
      .ok member.attributes pool := state_mapM_self fun attr hattr =>
    changeSignature_stays (hQ attr (hattributes attr hattr))
  simp only [changeField, state_bind_eq_ok, state_pure_eq_ok]
  exact ⟨_, pool, changeText_stays .descriptor htype, _, pool, hstay, rfl, rfl⟩

theorem changeMethod_stays {method : Member}
    (h : RelatedMethod pool (Stays names pool) method method) :
    changeMethod names method pool = .ok method pool := by
  have hfield := changeField_stays (fun _ hattr => hattr.self.1) h
  have hstay : method.attributes.mapM (changeCode names) pool = .ok method.attributes pool :=
    state_mapM_self fun attr hattr => changeCode_stays (h.self.2 attr hattr).self.2
  simp only [changeMethod, state_bind_eq_ok, state_pure_eq_ok]
  exact ⟨method, pool, hfield, _, pool, hstay, rfl, rfl⟩

theorem changeClass_stays {file : ClassFile}
    (h : RelatedClass (Stays names file.pool) file file) :
    changeClass names file file.pool = .ok file file.pool := by
  have hattributes : file.attributes.mapM (changeSignature names) file.pool =
      .ok file.attributes file.pool := state_mapM_self fun attr hattr =>
    changeSignature_stays (List.forall₂_same.mp h.attributes attr hattr)
  have hfields : file.fields.mapM (changeField names) file.pool = .ok file.fields file.pool :=
    state_mapM_self fun field hfield =>
      changeField_stays (fun _ => id) (List.forall₂_same.mp h.fields field hfield)
  have hmethods : file.methods.mapM (changeMethod names) file.pool =
      .ok file.methods file.pool := state_mapM_self fun method hmethod =>
    changeMethod_stays (List.forall₂_same.mp h.methods method hmethod)
  simp only [changeClass, state_bind_eq_ok, state_get_eq_ok, state_pure_eq_ok]
  refine ⟨(), _, ?_, _, _, hattributes, _, _, hfields, _, _, hmethods, _, _, ⟨rfl, rfl⟩, rfl, rfl⟩
  rw [entries_eq_entriesFrom]
  refine state_forM_self fun place hplace => ?_
  exact changeEntry_stays place.1 (h.entry_self (mem_of_mem_entriesFrom hplace))

end Repeat

end TypeSubstitution

/-! ### What a class mentions -/

namespace ClassFile
variable {analysis : Analysis} {file replaced : ClassFile}

/-- The variable stands in a table of the code of a method. -/
def HasVariable (file : ClassFile) (sort : AttributeName) (var : LocalVariable) : Prop :=
  ∃ method ∈ file.methods, ∃ attr ∈ method.attributes, ∃ code,
    attr.sort file.pool = .ok (some .code) ∧ Code.format.decode attr.info = .ok code ∧
    ∃ inner ∈ code.attributes, ∃ table, inner.sort file.pool = .ok (some sort) ∧
      LocalVariable.tableFormat.decode inner.info = .ok table ∧ var ∈ table

/-- The index of a text that the class has as a class name, as a descriptor or as a signature. -/
inductive TypeText (file : ClassFile) : TextKind → UInt16 → Prop
  | className {i j : UInt16} (hentry : file.pool.entry i = .ok (.class j)) :
    TypeText file .className j
  | nameAndType {i j k : UInt16} (hentry : file.pool.entry i = .ok (.nameAndType j k)) :
    TypeText file .descriptor k
  | methodType {i j : UInt16} (hentry : file.pool.entry i = .ok (.methodType j)) :
    TypeText file .descriptor j
  | member {member : Member} (hmember : member ∈ file.fields ++ file.methods) :
    TypeText file .descriptor member.descriptor
  | signature {attr : Attribute} {i : UInt16}
    (hattr : attr ∈ file.attributes ++ (file.fields ++ file.methods).flatMap Member.attributes)
    (hsort : attr.sort file.pool = .ok (some .signature))
    (hdecode : Format.u16.decode attr.info = .ok i) : TypeText file .signature i
  | variableType {var : LocalVariable} (hvar : file.HasVariable .localVariableTable var) :
    TypeText file .descriptor var.type
  | variableSignature {var : LocalVariable} (hvar : file.HasVariable .localVariableTypeTable var) :
    TypeText file .signature var.type

/-- The class has a text that mentions a class of this name. -/
def Mentions (file : ClassFile) (name : String) : Prop :=
  ∃ kind i text, file.TypeText kind i ∧ file.pool.text i = .ok text ∧ kind.Mentions text name

section Related
variable {R : TextRelation} (h : RelatedClass R file file)
include h

theorem related_signature {attr : Attribute}
    (hattr : attr ∈ file.attributes ++ (file.fields ++ file.methods).flatMap Member.attributes) :
    RelatedSignature file.pool R attr attr := by
  simp only [List.mem_append, List.mem_flatMap] at hattr
  rcases hattr with hattr | ⟨member, hfield | hmethod, hattr⟩
  · exact List.forall₂_same.mp h.attributes attr hattr
  · exact (List.forall₂_same.mp h.fields member hfield).self.2 attr hattr
  · exact ((List.forall₂_same.mp h.methods member hmethod).self.2 attr hattr).self.1

theorem HasVariable.related {sort : AttributeName} {var : LocalVariable}
    (hvar : file.HasVariable sort var) : ∃ attr table, attr.sort file.pool = .ok (some sort) ∧
      LocalVariable.tableFormat.decode attr.info = .ok table ∧ var ∈ table ∧
      RelatedCodeAttribute file.pool R attr attr := by
  obtain ⟨method, hmethod, outer, houter, code, hcode, hbody, attr, hattr, table, hsort, htable,
    hvar⟩ := hvar
  obtain ⟨sort', hcode', hrelated⟩ :=
    ((List.forall₂_same.mp h.methods method hmethod).self.2 outer houter).self.2
  obtain rfl := Except.ok.inj (hcode.symm.trans hcode')
  rw [if_pos rfl] at hrelated
  exact ⟨attr, table, hsort, htable, hvar, (hrelated.self hbody).self hattr⟩

theorem TypeText.related {kind : TextKind} {i : UInt16} (htext : file.TypeText kind i) :
    R kind i i := by
  cases htext with
  | className hentry =>
    obtain ⟨_, hsame, hname⟩ := h.entry_self (mem_slots_of_entry hentry)
    exact Entry.class.inj hsame ▸ hname
  | nameAndType hentry =>
    obtain ⟨_, hsame, htype⟩ := h.entry_self (mem_slots_of_entry hentry)
    exact (Entry.nameAndType.inj hsame).2 ▸ htype
  | methodType hentry =>
    obtain ⟨_, hsame, htype⟩ := h.entry_self (mem_slots_of_entry hentry)
    exact Entry.methodType.inj hsame ▸ htype
  | member hmember =>
    rcases List.mem_append.mp hmember with hfield | hmethod
    · exact (List.forall₂_same.mp h.fields _ hfield).self.1
    · exact (List.forall₂_same.mp h.methods _ hmethod).self.1
  | signature hattr hsort hdecode =>
    obtain ⟨sort, hsort', hrelated⟩ := related_signature h hattr
    obtain rfl := Except.ok.inj (hsort.symm.trans hsort')
    rw [if_pos rfl] at hrelated
    exact hrelated.self hdecode
  | variableType hvar =>
    obtain ⟨attr, table, hsort, htable, hvar, sort, hsort', hrelated⟩ := hvar.related h
    obtain rfl := Except.ok.inj (hsort.symm.trans hsort')
    exact hrelated.self htable hvar
  | variableSignature hvar =>
    obtain ⟨attr, table, hsort, htable, hvar, sort, hsort', hrelated⟩ := hvar.related h
    obtain rfl := Except.ok.inj (hsort.symm.trans hsort')
    exact hrelated.self htable hvar

end Related

/-- Where the replacements have names that can stand anywhere, replacing types leaves no mention of
a type that has a replacement, and replacing them once more changes nothing. -/
theorem replaceTypes_settles (hfits : file.pool.Fits)
    (hplain : ∀ old new, analysis.replacementType old = some new → IsPlainName new)
    (hrun : file.replaceTypes analysis = .ok replaced) :
    (∀ name, replaced.Mentions name → analysis.replacementType name = none) ∧
      replaced.replaceTypes analysis = .ok replaced := by
  rcases related_of_replaceTypes hfits hrun with ⟨hempty, rfl⟩ | ⟨htypes, -, hrelated⟩
  -- Texts that cannot be read are kept if there is nothing to replace, so this case stands apart.
  · refine ⟨fun name _ => ?_, hrun⟩
    rw [Analysis.replacementType, Std.ExtTreeMap.isEmpty_iff.mp hempty]
    simp
  · have hnames : Renaming.Settling analysis.replacementType :=
      ⟨fun h => hplain _ _ h, Analysis.replacementType_final⟩
    have hsettled := hrelated.settle (stays_of_changed hnames)
    constructor
    · rintro name ⟨kind, i, text, htext, htextAt, hmentions⟩
      obtain ⟨text', htextAt', hstays⟩ := htext.related hsettled
      obtain rfl := Except.ok.inj (htextAt.symm.trans htextAt')
      exact hstays.mentions name hmentions
    · simp only [ClassFile.replaceTypes, htypes, Bool.false_eq_true, if_false, except_bind_eq_ok,
        except_pure_eq_ok, runOn_eq_ok, Prod.exists]
      exact ⟨_, _, changeClass_stays hsettled, rfl⟩

theorem settles_keeper : ∃ replaced, keeper.replaceTypes keeperTypes = .ok replaced ∧
    keeper.Mentions "p/Old" ∧ ¬replaced.Mentions "p/Old" ∧ ¬replaced.Mentions "p/Next" ∧
    replaced.replaceTypes keeperTypes = .ok replaced := by
  have hrun : (keeper.replaceTypes keeperTypes).toOption.isSome = true := by decide +kernel
  obtain ⟨replaced, hreplaced⟩ := Option.isSome_iff_exists.mp hrun
  have hplain (old new : String) (h : keeperTypes.replacementType old = some new) :
      IsPlainName new := by
    obtain ⟨name, hname⟩ := Analysis.replacementType_mem h
    rw [keeperTypes, Std.ExtTreeMap.getElem?_insert, Std.ExtTreeMap.getElem?_insert] at hname
    split at hname
    · cases hname
      exact ⟨by decide, by simp⟩
    · split at hname
      · cases hname
        exact ⟨by decide, by simp⟩
      · simp at hname
  obtain ⟨hmentions, hagain⟩ :=
    replaceTypes_settles (by decide) hplain (toOption_eq_some.mp hreplaced)
  have hold : keeperTypes.replacementType "p/Old" = some "p/New" := by decide +kernel
  have hnext : keeperTypes.replacementType "p/Next" = some "p/New" := by decide +kernel
  refine ⟨replaced, toOption_eq_some.mp hreplaced, ?_, fun h => ?_, fun h => ?_, hagain⟩
  · have hclass : keeper.TypeText .className 3 := .className (i := 4) rfl
    exact ⟨.className, 3, "p/Old", hclass, rfl, .className (by decide)⟩
  · cases hold.symm.trans (hmentions _ h)
  · cases hnext.symm.trans (hmentions _ h)

end ClassFile

end StaticCompanion
