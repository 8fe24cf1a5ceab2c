import StaticCompanion.Proofs.Frame
import StaticCompanion.Proofs.Instructions
import StaticCompanion.Proofs.SettledTypes
import StaticCompanion.Proofs.SuccessiveOmission

/-!
# Classes with nothing to change

A class that is unaffected has no annotation to omit, no use of a moved member and no mention of a
replaced type. Each step of adapting such a class, where it succeeds, gives back what it was given
and puts nothing into the pool, so the class stays as it is and so do its bytes. What is read to be
renamed is printed again; it is the same text, since printing is the inverse of reading.
-/
namespace StaticCompanion

/-! ### Steps that change nothing -/

section Steps
variable {α : Type} {pool : ConstantPool}

/-- If the step succeeds on the pool, it gives this value and leaves the pool. -/
def Idles {β : Type} (pool : ConstantPool) (step : Relocation β) (value : β) : Prop :=
  ∀ ⦃given left⦄, step pool = .ok given left → given = value ∧ left = pool

theorem Idles.pure {β : Type} (value : β) : Idles pool (Pure.pure value) value := by
  intro given left hrun
  obtain ⟨rfl, rfl⟩ := state_pure_eq_ok.mp hrun
  exact ⟨rfl, rfl⟩

theorem Idles.mapM {f : α → Relocation α} {items : List α}
    (h : ∀ item ∈ items, Idles pool (f item) item) : Idles pool (items.mapM f) items := by
  induction items with
  | nil => exact Idles.pure []
  | cons item items ih =>
    rw [List.forall_mem_cons] at h
    intro given left hrun
    obtain ⟨first, pool₁, rest, hfirst, hrest, rfl⟩ := state_mapM_cons_eq_ok.mp hrun
    obtain ⟨rfl, rfl⟩ := h.1 hfirst
    obtain ⟨rfl, rfl⟩ := ih h.2 hrest
    exact ⟨rfl, rfl⟩

theorem Idles.forM {f : α → Relocation Unit} {items : List α}
    (h : ∀ item ∈ items, Idles pool (f item) ()) : Idles pool (items.forM f) () := by
  induction items with
  | nil => exact Idles.pure ()
  | cons item items ih =>
    rw [List.forall_mem_cons] at h
    intro given left hrun
    obtain ⟨_, pool₁, hfirst, hrest⟩ := state_bind_eq_ok.mp hrun
    obtain ⟨-, rfl⟩ := h.1 hfirst
    exact ih h.2 hrest

end Steps

/-! ### Annotations -/

namespace Omission
variable {omitted : NameSet} {pool : ConstantPool} {place : Place} {attr : Attribute}

/-- The attribute is a list of these annotations, which can be omitted from it at this place. -/
inductive Lists (pool : ConstantPool) (place : Place) (attr : Attribute) :
    List AnnotationUse → Prop
  | annotations {sort : AttributeName} {uses : List AnnotationUse} (hplace : place ≠ .code)
      (hsort : attr.sort pool = .ok (some sort))
      (hannotations : sort = .visibleAnnotations ∨ sort = .invisibleAnnotations)
      (hdecode : AnnotationUse.listFormat.decode attr.info = .ok uses) : Lists pool place attr uses
  | typeAnnotations {sort : AttributeName} {items : List TypeAnnotationUse}
      (hsort : attr.sort pool = .ok (some sort))
      (hannotations : sort = .visibleTypeAnnotations ∨ sort = .invisibleTypeAnnotations)
      (hdecode : TypeAnnotationUse.listFormat.decode attr.info = .ok items) :
      Lists pool place attr (items.map TypeAnnotationUse.content)

/-- The attribute has a list of these annotations for one of the parameters. -/
def ListsForParameter (pool : ConstantPool) (attr : Attribute) (uses : List AnnotationUse) : Prop :=
  ∃ sort lists, attr.sort pool = .ok (some sort) ∧
    (sort = .visibleParameterAnnotations ∨ sort = .invisibleParameterAnnotations) ∧
    AnnotationUse.parametersFormat.decode attr.info = .ok lists ∧ uses ∈ lists

def SparesUse (omitted : NameSet) (pool : ConstantPool) (use : AnnotationUse) : Prop :=
  ∀ descriptor, use.descriptorIn pool = .ok descriptor → descriptor ∉ omitted

/-- Nothing is omitted from the attribute, and it is neither an empty list of annotations nor one of
the names of parameters, which go in any case. -/
structure Spares (omitted : NameSet) (pool : ConstantPool) (place : Place) (attr : Attribute) :
    Prop where
  uses : ∀ uses, Lists pool place attr uses → ∀ use ∈ uses, SparesUse omitted pool use
  nonempty : ¬ Lists pool place attr []
  parameters : place = .method → ∀ uses, ListsForParameter pool attr uses →
    ∀ use ∈ uses, SparesUse omitted pool use
  names : place = .method → attr.sort pool ≠ .ok (some .methodParameters)

theorem spares_of_sort (sort : Option AttributeName) (hsort : attr.sort pool = .ok sort)
    (hother : sort.any place.thins = false) : Spares omitted pool place attr := by
  have hlists (uses : List AnnotationUse) : ¬ Lists pool place attr uses := by
    intro hlisted
    cases hlisted with
    | annotations hplace hsort' hannotations =>
      obtain rfl := Except.ok.inj (hsort.symm.trans hsort')
      rcases hannotations with rfl | rfl <;> simp [Place.thins, hplace] at hother
    | typeAnnotations hsort' hannotations =>
      obtain rfl := Except.ok.inj (hsort.symm.trans hsort')
      rcases hannotations with rfl | rfl <;> simp [Place.thins] at hother
  refine ⟨fun uses h => absurd h (hlists uses), hlists [], ?_, ?_⟩
  · rintro rfl uses ⟨_, _, hsort', hannotations, -⟩
    obtain rfl := Except.ok.inj (hsort.symm.trans hsort')
    rcases hannotations with rfl | rfl <;> simp [Place.thins] at hother
  · rintro rfl hnames
    obtain rfl := Except.ok.inj (hsort.symm.trans hnames)
    simp [Place.thins] at hother

theorem keep_eq_self {α : Type} {use : α → AnnotationUse} {items kept : List α}
    (h : ∀ item ∈ items, SparesUse omitted pool (use item))
    (hrun : keep omitted pool use items = .ok kept) : kept = items := by
  rw [keep_eq_filterMapM] at hrun
  apply except_filterMapM_eq_self _ hrun
  intro item hitem found hfound
  obtain ⟨descriptor, hdescriptor, rfl⟩ := keepOne_eq_ok.mp hfound
  exact if_neg (h item hitem descriptor hdescriptor)

theorem filterList_eq_self {α : Type} {format : Format (List α)} {use : α → AnnotationUse}
    {kept : Option Attribute} (h : ∀ items, format.decode attr.info = .ok items →
      items ≠ [] ∧ ∀ item ∈ items, SparesUse omitted pool (use item))
    (hrun : filterList omitted pool format use attr = .ok kept) : kept = some attr := by
  simp only [filterList, except_bind_eq_ok, lift_class_eq_ok] at hrun
  obtain ⟨items, hitems, others, hothers, hrun⟩ := hrun
  obtain ⟨hsome, hspared⟩ := h items hitems
  obtain rfl := keep_eq_self hspared hothers
  rw [if_neg (by simpa [List.isEmpty_iff] using hsome), if_pos rfl] at hrun
  exact (except_pure_eq_ok.mp hrun).symm

theorem filterParameters_eq_self {kept : Option Attribute}
    (h : ∀ lists, AnnotationUse.parametersFormat.decode attr.info = .ok lists →
      ∀ uses ∈ lists, ∀ use ∈ uses, SparesUse omitted pool use)
    (hrun : filterParameters omitted pool attr = .ok kept) : kept = some attr := by
  simp only [filterParameters, except_bind_eq_ok, lift_class_eq_ok] at hrun
  obtain ⟨lists, hlists, others, hothers, hrun⟩ := hrun
  obtain rfl : others = lists := except_mapM_eq_self
    (fun uses huses _ hkept => keep_eq_self (h lists hlists uses huses) hkept) hothers
  rw [if_pos rfl] at hrun
  exact (except_pure_eq_ok.mp hrun).symm

namespace Spares
variable {sort : AttributeName} {kept : Option Attribute} (h : Spares omitted pool place attr)
  (hsort : attr.sort pool = .ok (some sort))
include h hsort

theorem keeps_annotations (hannotations : sort = .visibleAnnotations ∨ sort = .invisibleAnnotations)
    (hplace : place ≠ .code)
    (hrun : filterList omitted pool AnnotationUse.listFormat id attr = .ok kept) :
    kept = some attr := by
  apply filterList_eq_self _ hrun
  intro uses hdecode
  have hlisted : Lists pool place attr uses := .annotations hplace hsort hannotations hdecode
  exact ⟨fun hnone => h.nonempty (hnone ▸ hlisted), h.uses uses hlisted⟩

theorem keeps_typeAnnotations
    (hannotations : sort = .visibleTypeAnnotations ∨ sort = .invisibleTypeAnnotations)
    (hrun : filterList omitted pool TypeAnnotationUse.listFormat TypeAnnotationUse.content attr =
      .ok kept) : kept = some attr := by
  apply filterList_eq_self _ hrun
  intro items hdecode
  have hlisted : Lists pool place attr (items.map TypeAnnotationUse.content) :=
    .typeAnnotations hsort hannotations hdecode
  constructor
  · rintro rfl
    exact h.nonempty hlisted
  · intro item hitem
    exact h.uses _ hlisted _ (List.mem_map_of_mem hitem)

theorem keeps_parameters
    (hannotations : sort = .visibleParameterAnnotations ∨ sort = .invisibleParameterAnnotations)
    (hplace : place = .method) (hrun : filterParameters omitted pool attr = .ok kept) :
    kept = some attr := by
  apply filterParameters_eq_self _ hrun
  intro lists hdecode uses huses
  exact h.parameters hplace uses ⟨sort, lists, hsort, hannotations, hdecode, huses⟩

end Spares

theorem filterPlain_eq_self {kept : Option Attribute} (h : Spares omitted pool place attr)
    (hrun : filterPlain omitted pool place attr = .ok kept) : kept = some attr := by
  simp only [filterPlain, except_bind_eq_ok, lift_class_eq_ok] at hrun
  obtain ⟨sort, hsort, hrun⟩ := hrun
  have hself (hrun : (pure (some attr) : Except RelocationFault _) = .ok kept) :
      kept = some attr := (except_pure_eq_ok.mp hrun).symm
  split at hrun
  · split at hrun
    · exact hself hrun
    · exact h.keeps_annotations hsort (.inl rfl) ‹_› hrun
  · split at hrun
    · exact hself hrun
    · exact h.keeps_annotations hsort (.inr rfl) ‹_› hrun
  · exact h.keeps_typeAnnotations hsort (.inl rfl) hrun
  · exact h.keeps_typeAnnotations hsort (.inr rfl) hrun
  · split at hrun
    · exact hself hrun
    · exact h.keeps_parameters hsort (.inl rfl) (not_not.mp ‹_›) hrun
  · split at hrun
    · exact hself hrun
    · exact h.keeps_parameters hsort (.inr rfl) (not_not.mp ‹_›) hrun
  · split at hrun
    · exact absurd hsort (h.names ‹_›)
    · exact hself hrun
  · exact hself hrun

theorem filterAttribute_eq_self {kept : Option Attribute} (h : Spares omitted pool place attr)
    (hcode : place = .method → attr.sort pool = .ok (some .code) → ∀ code,
      Code.format.decode attr.info = .ok code →
        ∀ inner ∈ code.attributes, Spares omitted pool .code inner)
    (hrun : filterAttribute omitted pool place attr = .ok kept) : kept = some attr := by
  obtain ⟨sort, hsort, hrun⟩ := filterAttribute_eq_ok.mp hrun
  split at hrun
  · rename_i hbody
    simp only [filterCode, except_bind_eq_ok, lift_class_eq_ok] at hrun
    obtain ⟨same, ⟨code, hdecode, others, hothers, hrun⟩, rfl⟩ := hrun
    have hinner := hcode hbody.1 (hbody.2 ▸ hsort) code hdecode
    obtain rfl : others = code.attributes := except_filterMapM_eq_self
      (fun inner hmem _ hkept => filterPlain_eq_self (hinner inner hmem) hkept) hothers
    rw [if_pos rfl] at hrun
    rw [except_pure_eq_ok.mp hrun]
  · exact filterPlain_eq_self h hrun

theorem filterMember_eq_self {member member' : Member}
    (h : ∀ attr ∈ member.attributes, ∀ kept,
      filterAttribute omitted pool place attr = .ok kept → kept = some attr)
    (hrun : filterMember omitted pool place member = .ok member') : member' = member := by
  simp only [filterMember, except_bind_eq_ok, except_pure_eq_ok] at hrun
  obtain ⟨attributes, hattributes, rfl⟩ := hrun
  rw [except_filterMapM_eq_self h hattributes]

end Omission

/-! ### Uses of members -/

namespace Retarget
variable {analysis : Analysis} {owners : Option NameSet} {pool : ConstantPool}

/-- The instruction neither accesses a moved field nor calls a moved method that may be turned. -/
structure Spares (analysis : Analysis) (owners : Option NameSet) (pool : ConstantPool)
    (instruction : Instruction) : Prop where
  field : ∀ access index key, instruction.action = .field access index →
    pool.member index = .ok key → key ∉ analysis.fields
  call : ∀ kind index key, instruction.action = .call kind index →
    pool.member index = .ok key → eligible owners key = true → key ∉ analysis.methods

/-- The bootstrap does not make a plain lambda of a moved method. -/
def SparesBootstrap (analysis : Analysis) (pool : ConstantPool) (bootstrap : Bootstrap) : Prop :=
  ∀ kind factory body, pool.methodHandle bootstrap.method = .ok (kind, factory) →
    factory.owner = metafactoryOwner → factory.name = metafactory →
    lambdaBody pool bootstrap = .ok (some body) → body ∉ analysis.methods

theorem idles_turnInstruction {instruction : Instruction}
    (h : Spares analysis owners pool instruction) :
    Idles pool (turnInstruction analysis owners instruction) instruction := by
  intro given left hrun
  simp only [turnInstruction] at hrun
  cases haction : instruction.action with
  | field access index =>
    simp only [haction, state_bind_eq_ok, state_get_eq_ok, state_lift_eq_ok,
      lift_pool_eq_ok] at hrun
    obtain ⟨_, _, ⟨rfl, rfl⟩, key, _, ⟨hkey, rfl⟩, hrun⟩ := hrun
    rw [Std.ExtTreeMap.getElem?_eq_none (h.field access index key haction hkey)] at hrun
    exact Idles.pure _ hrun
  | call kind index =>
    simp only [haction, state_bind_eq_ok, state_get_eq_ok, state_lift_eq_ok,
      lift_pool_eq_ok] at hrun
    obtain ⟨_, _, ⟨rfl, rfl⟩, key, _, ⟨hkey, rfl⟩, hrun⟩ := hrun
    have hnone : (if eligible owners key then analysis.methods[key]? else none) = none := by
      by_cases heligible : eligible owners key = true
      · rw [if_pos heligible]
        exact Std.ExtTreeMap.getElem?_eq_none (h.call kind index key haction hkey heligible)
      · exact if_neg heligible
    rw [hnone] at hrun
    exact Idles.pure _ hrun
  | _ =>
    rw [haction] at hrun
    exact Idles.pure _ hrun

theorem idles_turnCode {bytes : Bytes}
    (h : ∀ instructions, Instruction.decode bytes = .ok instructions →
      ∀ instruction ∈ instructions, Spares analysis owners pool instruction) :
    Idles pool (turnCode analysis owners bytes) bytes := by
  intro given left hrun
  simp only [turnCode, state_bind_eq_ok, state_lift_eq_ok, lift_malformation_eq_ok,
    state_pure_eq_ok] at hrun
  obtain ⟨instructions, _, ⟨hdecode, rfl⟩, turned, pool₁, hturned, rfl, rfl⟩ := hrun
  obtain ⟨rfl, rfl⟩ :=
    Idles.mapM (fun item hitem => idles_turnInstruction (h _ hdecode item hitem)) hturned
  exact ⟨(Instruction.decode_eq_ok.mp hdecode).2.symm, rfl⟩

theorem idles_turnAttribute {attr : Attribute} (h : attr.sort pool = .ok (some .code) → ∀ code,
      Code.format.decode attr.info = .ok code → ∀ instructions,
        Instruction.decode code.bytes = .ok instructions →
          ∀ instruction ∈ instructions, Spares analysis owners pool instruction) :
    Idles pool (turnAttribute analysis owners attr) attr := by
  intro given left hrun
  simp only [turnAttribute, state_bind_eq_ok, state_get_eq_ok, state_lift_eq_ok,
    lift_class_eq_ok] at hrun
  obtain ⟨_, _, ⟨rfl, rfl⟩, sort, _, ⟨hsort, rfl⟩, hrun⟩ := hrun
  split at hrun
  · exact Idles.pure _ hrun
  · rename_i hcode
    simp only [state_bind_eq_ok, state_lift_eq_ok, lift_class_eq_ok] at hrun
    obtain ⟨code, _, ⟨hdecode, rfl⟩, bytes, pool₁, hturned, hrun⟩ := hrun
    obtain ⟨rfl, rfl⟩ := idles_turnCode (h (not_not.mp hcode ▸ hsort) code hdecode) hturned
    rw [if_pos rfl] at hrun
    exact Idles.pure _ hrun

theorem idles_turnBootstrap {bootstrap : Bootstrap}
    (h : SparesBootstrap analysis pool bootstrap) :
    Idles pool (turnBootstrap analysis bootstrap) bootstrap := by
  intro given left hrun
  simp only [turnBootstrap, state_bind_eq_ok, state_get_eq_ok, state_lift_eq_ok,
    lift_pool_eq_ok] at hrun
  obtain ⟨_, _, ⟨rfl, rfl⟩, ⟨kind, factory⟩, _, ⟨hfactory, rfl⟩, hrun⟩ := hrun
  split at hrun
  · exact Idles.pure _ hrun
  · rename_i hplain
    simp only [not_or, not_not] at hplain
    simp only [state_bind_eq_ok, state_get_eq_ok, state_lift_eq_ok, lift_pool_eq_ok] at hrun
    obtain ⟨_, _, ⟨rfl, rfl⟩, found, _, ⟨hbody, rfl⟩, hrun⟩ := hrun
    cases found with
    | none =>
      exact Idles.pure _ hrun
    | some body =>
      have hstays := h kind factory body hfactory hplain.1 hplain.2 hbody
      simp only [Std.ExtTreeMap.getElem?_eq_none hstays] at hrun
      exact Idles.pure _ hrun

end Retarget

/-! ### Mentions of types -/

namespace TypeSubstitution
variable {names : Renaming} {pool : ConstantPool}

theorem change_eq_self {kind : TextKind} {text changed : String}
    (h : ∀ name, kind.Mentions text name → names name = none)
    (hchange : kind.change names text = .ok changed) : changed = text := by
  cases kind with
  | className =>
    rcases className_eq_ok.mp hchange with ⟨element, htype, rfl⟩ | ⟨hhead, rfl⟩
    · have hbracket := (head?_of_field htype).2.mpr ⟨element, rfl⟩
      rw [FieldType.rename_eq_self fun name hname => h name (.arrayClass hbracket htype hname)]
      exact FieldType.descriptor_of_ofDescriptor htype
    · rw [Renaming.apply, h text (.className hhead), Option.getD_none]
  | descriptor =>
    rcases descriptor_eq_ok.mp hchange with ⟨method, hmethod, rfl⟩ | ⟨type, htype, rfl⟩
    · rw [MethodDescriptor.rename_eq_self fun name hname => h name (.method hmethod hname)]
      exact MethodDescriptor.descriptor_of_ofDescriptor hmethod
    · rw [FieldType.rename_eq_self fun name hname => h name (.field htype hname)]
      exact FieldType.descriptor_of_ofDescriptor htype
  | signature =>
    simp only [TextKind.change, signature, Signature.renameText] at hchange
    split at hchange
    · rename_i tree htree
      obtain rfl := Except.ok.inj hchange
      rw [Signature.rename_eq_self fun name hname => h name (.signature htree hname)]
      rw [Signature.render, ← (Signature.faithful_parse htree).1, String.ofList_toList]
    · cases hchange

/-- The text, if there is one, mentions no class that is replaced. -/
def SparesText (names : Renaming) (pool : ConstantPool) (kind : TextKind) (index : UInt16) : Prop :=
  ∀ text, pool.text index = .ok text → ∀ name, kind.Mentions text name → names name = none

theorem idles_changeText (kind : TextKind) {index : UInt16}
    (h : SparesText names pool kind index) :
    Idles pool (changeText (kind.change names) index) index := by
  intro given left hrun
  simp only [changeText, state_bind_eq_ok, state_get_eq_ok, state_lift_eq_ok, lift_pool_eq_ok,
    lift_descriptor_eq_ok] at hrun
  obtain ⟨_, _, ⟨rfl, rfl⟩, text, _, ⟨htext, rfl⟩, changed, _, ⟨hchange, rfl⟩, hrun⟩ := hrun
  rw [if_pos (change_eq_self (h text htext) hchange)] at hrun
  exact Idles.pure _ hrun

theorem idles_repoint (kind : TextKind) {index place : UInt16} {constant : UInt16 → Entry}
    (h : SparesText names pool kind index) :
    Idles pool (do
      let changed ← changeText (kind.change names) index
      if changed ≠ index then ConstantPool.replace place (constant changed) : Relocation Unit)
      () := by
  intro given left hrun
  obtain ⟨changed, _, hchange, hrest⟩ := state_bind_eq_ok.mp hrun
  obtain ⟨rfl, rfl⟩ := idles_changeText kind h hchange
  rw [if_neg (not_not.mpr rfl)] at hrest
  exact Idles.pure _ hrest

/-- The types that the constant names. -/
inductive EntryText : Entry → TextKind → UInt16 → Prop
  | className {name : UInt16} : EntryText (.class name) .className name
  | nameAndType {name type : UInt16} : EntryText (.nameAndType name type) .descriptor type
  | methodType {type : UInt16} : EntryText (.methodType type) .descriptor type

theorem idles_changeEntry (place : UInt16) {entry : Entry}
    (h : ∀ kind index, EntryText entry kind index → SparesText names pool kind index) :
    Idles pool (changeEntry names place entry) () := by
  cases entry with
  | «class» name => exact idles_repoint .className (h _ _ .className)
  | nameAndType name type => exact idles_repoint .descriptor (h _ _ .nameAndType)
  | methodType type => exact idles_repoint .descriptor (h _ _ .methodType)
  | _ => exact Idles.pure ()

theorem idles_changeSignature {attr : Attribute} (h : attr.sort pool = .ok (some .signature) →
      ∀ index, Format.u16.decode attr.info = .ok index → SparesText names pool .signature index) :
    Idles pool (changeSignature names attr) attr := by
  intro given left hrun
  simp only [changeSignature, state_bind_eq_ok, state_get_eq_ok, state_lift_eq_ok,
    lift_class_eq_ok] at hrun
  obtain ⟨_, _, ⟨rfl, rfl⟩, sort, _, ⟨hsort, rfl⟩, hrun⟩ := hrun
  split at hrun
  · exact Idles.pure _ hrun
  · rename_i hsignature
    simp only [state_bind_eq_ok, state_lift_eq_ok, lift_class_eq_ok] at hrun
    obtain ⟨index, _, ⟨hdecode, rfl⟩, changed, _, hchange, hrun⟩ := hrun
    have hspared := h (not_not.mp hsignature ▸ hsort) index hdecode
    obtain ⟨rfl, rfl⟩ := idles_changeText .signature hspared hchange
    rw [if_pos rfl] at hrun
    exact Idles.pure _ hrun

theorem idles_changeTable (kind : TextKind) {attr : Attribute}
    (h : ∀ table, LocalVariable.tableFormat.decode attr.info = .ok table →
      ∀ var ∈ table, SparesText names pool kind var.type) :
    Idles pool (changeTable (kind.change names) attr) attr := by
  intro given left hrun
  simp only [changeTable, state_bind_eq_ok, state_lift_eq_ok, lift_class_eq_ok] at hrun
  obtain ⟨table, _, ⟨hdecode, rfl⟩, changed, _, hchange, hrun⟩ := hrun
  have hvar (var : LocalVariable) (hmem : var ∈ table) : Idles pool (do
      return { var with type := ← changeText (kind.change names) var.type }) var := by
    intro given left hrun
    obtain ⟨type, _, hchange, hrest⟩ := state_bind_eq_ok.mp hrun
    obtain ⟨rfl, rfl⟩ := idles_changeText kind (h table hdecode var hmem) hchange
    exact Idles.pure _ hrest
  obtain ⟨rfl, rfl⟩ := Idles.mapM hvar hchange
  rw [if_pos rfl] at hrun
  exact Idles.pure _ hrun

/-- The table of local variables spares the types that are replaced. -/
def SparesTable (names : Renaming) (pool : ConstantPool) (attr : Attribute) : Prop :=
  ∀ table, LocalVariable.tableFormat.decode attr.info = .ok table → ∀ var ∈ table,
    (attr.sort pool = .ok (some .localVariableTable) → SparesText names pool .descriptor var.type) ∧
    (attr.sort pool = .ok (some .localVariableTypeTable) →
      SparesText names pool .signature var.type)

theorem idles_changeCodeAttribute {attr : Attribute} (h : SparesTable names pool attr) :
    Idles pool (changeCodeAttribute names attr) attr := by
  intro given left hrun
  simp only [changeCodeAttribute, state_bind_eq_ok, state_get_eq_ok, state_lift_eq_ok,
    lift_class_eq_ok] at hrun
  obtain ⟨_, _, ⟨rfl, rfl⟩, sort, _, ⟨hsort, rfl⟩, hrun⟩ := hrun
  split at hrun
  · exact idles_changeTable .descriptor
      (fun table hdecode var hvar => (h table hdecode var hvar).1 hsort) hrun
  · exact idles_changeTable .signature
      (fun table hdecode var hvar => (h table hdecode var hvar).2 hsort) hrun
  · exact Idles.pure _ hrun

theorem idles_changeCode {attr : Attribute} (h : attr.sort pool = .ok (some .code) →
      ∀ code, Code.format.decode attr.info = .ok code →
        ∀ inner ∈ code.attributes, SparesTable names pool inner) :
    Idles pool (changeCode names attr) attr := by
  intro given left hrun
  simp only [changeCode, state_bind_eq_ok, state_get_eq_ok, state_lift_eq_ok,
    lift_class_eq_ok] at hrun
  obtain ⟨_, _, ⟨rfl, rfl⟩, sort, _, ⟨hsort, rfl⟩, hrun⟩ := hrun
  split at hrun
  · exact Idles.pure _ hrun
  · rename_i hcode
    simp only [state_bind_eq_ok, state_lift_eq_ok, lift_class_eq_ok] at hrun
    obtain ⟨code, _, ⟨hdecode, rfl⟩, attributes, _, hchange, hrun⟩ := hrun
    have hinner := h (not_not.mp hcode ▸ hsort) code hdecode
    obtain ⟨rfl, rfl⟩ :=
      Idles.mapM (fun inner hmem => idles_changeCodeAttribute (hinner inner hmem)) hchange
    rw [if_pos rfl] at hrun
    exact Idles.pure _ hrun

theorem idles_changeField {member : Member}
    (htype : SparesText names pool .descriptor member.descriptor)
    (h : ∀ attr ∈ member.attributes, Idles pool (changeSignature names attr) attr) :
    Idles pool (changeField names member) member := by
  intro given left hrun
  simp only [changeField, state_bind_eq_ok] at hrun
  obtain ⟨type, _, hchange, attributes, _, hattributes, hrun⟩ := hrun
  obtain ⟨rfl, rfl⟩ := idles_changeText .descriptor htype hchange
  obtain ⟨rfl, rfl⟩ := Idles.mapM h hattributes
  exact Idles.pure _ hrun

theorem idles_changeMethod {method : Member} (hfield : Idles pool (changeField names method) method)
    (h : ∀ attr ∈ method.attributes, Idles pool (changeCode names attr) attr) :
    Idles pool (changeMethod names method) method := by
  intro given left hrun
  simp only [changeMethod, state_bind_eq_ok] at hrun
  obtain ⟨same, _, hsame, attributes, _, hattributes, hrun⟩ := hrun
  obtain ⟨rfl, rfl⟩ := hfield hsame
  obtain ⟨rfl, rfl⟩ := Idles.mapM h hattributes
  exact Idles.pure _ hrun

end TypeSubstitution

/-! ### The class -/

namespace ClassFile
variable {options : Options} {analysis : Analysis} {file left adapted : ClassFile} {code : Code}

/-- A method has an attribute that holds this code. -/
def HasCode (file : ClassFile) (code : Code) : Prop :=
  ∃ method ∈ file.methods, ∃ attr ∈ method.attributes,
    attr.sort file.pool = .ok (some .code) ∧ Code.format.decode attr.info = .ok code

/-- The attribute stands at a place of this kind. -/
inductive HasAttribute (file : ClassFile) : Omission.Place → Attribute → Prop
  | ofClass {attr : Attribute} (hattr : attr ∈ file.attributes) : HasAttribute file .class attr
  | ofField {field : Member} {attr : Attribute} (hfield : field ∈ file.fields)
      (hattr : attr ∈ field.attributes) : HasAttribute file .field attr
  | ofMethod {method : Member} {attr : Attribute} (hmethod : method ∈ file.methods)
      (hattr : attr ∈ method.attributes) : HasAttribute file .method attr
  | ofCode {code : Code} {attr : Attribute} (hcode : file.HasCode code)
      (hattr : attr ∈ code.attributes) : HasAttribute file .code attr

/-- There is nothing in the class to omit, to turn to a companion or to replace. -/
structure Unaffected (options : Options) (analysis : Analysis) (file : ClassFile) : Prop where
  attributes : ∀ place attr, file.HasAttribute place attr →
    Omission.Spares options.omitted file.pool place attr
  instructions : ∀ code instructions, file.HasCode code →
    Instruction.decode code.bytes = .ok instructions →
      ∀ instruction ∈ instructions, Retarget.Spares analysis options.owners file.pool instruction
  lambdas : ∀ table, file.bootstraps = .ok table →
    ∀ bootstrap ∈ table, Retarget.SparesBootstrap analysis file.pool bootstrap
  types : ∀ name, file.Mentions name → analysis.replacementType name = none

namespace Unaffected
variable (h : file.Unaffected options analysis)
include h

theorem omitAnnotations_eq (hrun : file.omitAnnotations options.omitted = .ok left) :
    left = file := by
  simp only [ClassFile.omitAnnotations, except_bind_eq_ok, except_pure_eq_ok] at hrun
  obtain ⟨attributes, hattributes, fields, hfields, methods, hmethods, rfl⟩ := hrun
  have hkeeps {place : Omission.Place} {attr : Attribute} (hattr : file.HasAttribute place attr)
      (hplace : place ≠ .method) {kept : Option Attribute}
      (hkept : Omission.filterAttribute options.omitted file.pool place attr = .ok kept) :
      kept = some attr :=
    Omission.filterAttribute_eq_self (h.attributes place attr hattr)
      (fun hmethod => absurd hmethod hplace) hkept
  obtain rfl : attributes = file.attributes :=
    except_filterMapM_eq_self (fun attr hattr _ hkept => hkeeps (.ofClass hattr) (by decide) hkept)
      hattributes
  obtain rfl : fields = file.fields := by
    apply except_mapM_eq_self _ hfields
    intro field hfield _ hfilter
    exact Omission.filterMember_eq_self
      (fun attr hattr _ hkept => hkeeps (.ofField hfield hattr) (by decide) hkept) hfilter
  obtain rfl : methods = file.methods := by
    apply except_mapM_eq_self _ hmethods
    intro method hmethod _ hfilter
    apply Omission.filterMember_eq_self _ hfilter
    intro attr hattr kept hkept
    refine Omission.filterAttribute_eq_self (h.attributes .method attr (.ofMethod hmethod hattr))
      (fun _ hsort code hdecode inner hinner => ?_) hkept
    exact h.attributes .code inner (.ofCode ⟨method, hmethod, attr, hattr, hsort, hdecode⟩ hinner)
  rfl

theorem idles_turnMethod {method : Member} (hmem : method ∈ file.methods) :
    Idles file.pool (Retarget.turnMethod analysis options.owners method) method := by
  intro given left hrun
  obtain ⟨attributes, _, hattributes, hrest⟩ := state_bind_eq_ok.mp hrun
  have hattribute (attr : Attribute) (hattr : attr ∈ method.attributes) :
      Idles file.pool (Retarget.turnAttribute analysis options.owners attr) attr := by
    apply Retarget.idles_turnAttribute
    intro hsort code hdecode instructions
    exact h.instructions code instructions ⟨method, hmem, attr, hattr, hsort, hdecode⟩
  obtain ⟨rfl, rfl⟩ := Idles.mapM hattribute hattributes
  exact Idles.pure _ hrest

theorem retarget_eq (hrun : file.retarget analysis options.owners = .ok left) : left = file := by
  obtain ⟨table, methods, pool₁, others, pool₂, attributes, htable, hmethods, hothers,
    hattributes, rfl⟩ := Retarget.retarget_eq_ok.mp hrun
  obtain ⟨rfl, rfl⟩ := Idles.mapM (fun _ hmem => h.idles_turnMethod hmem) hmethods
  obtain ⟨rfl, rfl⟩ := Idles.mapM
    (fun bootstrap hmem => Retarget.idles_turnBootstrap (h.lambdas table htable bootstrap hmem))
    hothers
  obtain rfl : attributes = file.attributes := by
    rwa [Retarget.WithTurned, if_pos rfl] at hattributes
  rfl

theorem sparesText {kind : TypeSubstitution.TextKind} {index : UInt16}
    (htext : file.TypeText kind index) :
    TypeSubstitution.SparesText analysis.replacementType file.pool kind index := by
  intro text hindex name hmentions
  exact h.types name ⟨kind, index, text, htext, hindex, hmentions⟩

section Types
open TypeSubstitution

theorem idles_changeEntry (hfits : file.pool.Fits) {index : UInt16} {entry : Entry}
    (hmem : (index, entry) ∈ file.pool.entries) :
    Idles file.pool (changeEntry analysis.replacementType index entry) () := by
  rw [ConstantPool.entries_eq_entriesFrom] at hmem
  obtain ⟨_, hindex⟩ :=
    ConstantPool.exists_index_of_mem hfits (ConstantPool.mem_of_mem_entriesFrom hmem)
  apply TypeSubstitution.idles_changeEntry
  intro kind text htext
  apply h.sparesText
  cases htext with
  | className => exact .className hindex
  | nameAndType => exact .nameAndType hindex
  | methodType => exact .methodType hindex

theorem idles_changeSignature {attr : Attribute} (hattr : attr ∈ file.attributes ++
      (file.fields ++ file.methods).flatMap Member.attributes) :
    Idles file.pool (changeSignature analysis.replacementType attr) attr := by
  apply TypeSubstitution.idles_changeSignature
  intro hsort index hdecode
  exact h.sparesText (.signature hattr hsort hdecode)

theorem idles_changeField {member : Member} (hmem : member ∈ file.fields ++ file.methods) :
    Idles file.pool (changeField analysis.replacementType member) member := by
  apply TypeSubstitution.idles_changeField (h.sparesText (.member hmem))
  intro attr hattr
  apply h.idles_changeSignature
  exact List.mem_append_right _ (List.mem_flatMap.mpr ⟨member, hmem, hattr⟩)

theorem idles_changeMethod {method : Member} (hmem : method ∈ file.methods) :
    Idles file.pool (changeMethod analysis.replacementType method) method := by
  apply TypeSubstitution.idles_changeMethod (h.idles_changeField (List.mem_append_right _ hmem))
  intro attr hattr
  apply idles_changeCode
  intro hcode code hbody inner hinner table htable var hvar
  constructor
  · intro hsort
    exact h.sparesText (.variableType
      ⟨method, hmem, attr, hattr, code, hcode, hbody, inner, hinner, table, hsort, htable, hvar⟩)
  · intro hsort
    exact h.sparesText (.variableSignature
      ⟨method, hmem, attr, hattr, code, hcode, hbody, inner, hinner, table, hsort, htable, hvar⟩)

theorem idles_changeClass (hfits : file.pool.Fits) :
    Idles file.pool (changeClass analysis.replacementType file) file := by
  intro given left hrun
  simp only [changeClass, state_bind_eq_ok, state_get_eq_ok] at hrun
  obtain ⟨_, _, hentries, attributes, _, hattributes, fields, _, hfields, methods, _, hmethods,
    _, _, ⟨rfl, rfl⟩, hrun⟩ := hrun
  obtain ⟨-, rfl⟩ := Idles.forM (fun _ hmem => h.idles_changeEntry hfits hmem) hentries
  obtain ⟨rfl, rfl⟩ := Idles.mapM
    (fun _ hattr => h.idles_changeSignature (List.mem_append_left _ hattr)) hattributes
  obtain ⟨rfl, rfl⟩ := Idles.mapM
    (fun _ hfield => h.idles_changeField (List.mem_append_left _ hfield)) hfields
  obtain ⟨rfl, rfl⟩ := Idles.mapM (fun _ hmem => h.idles_changeMethod hmem) hmethods
  exact Idles.pure _ hrun

end Types

theorem replaceTypes_eq (hfits : file.pool.Fits)
    (hrun : file.replaceTypes analysis = .ok left) : left = file := by
  unfold ClassFile.replaceTypes at hrun
  split at hrun
  · exact (except_pure_eq_ok.mp hrun).symm
  · simp only [except_bind_eq_ok, except_pure_eq_ok, runOn_eq_ok, Prod.exists] at hrun
    obtain ⟨_, pool, hrun, rfl⟩ := hrun
    exact (h.idles_changeClass hfits hrun).1

theorem adapt_eq (hfits : file.pool.Fits) (hadapt : file.adapt options analysis = .ok adapted) :
    adapted = file := by
  simp only [ClassFile.adapt, except_bind_eq_ok] at hadapt
  obtain ⟨filtered, hfiltered, turned, hturned, hreplaced⟩ := hadapt
  obtain rfl := h.omitAnnotations_eq hfiltered
  obtain rfl := h.retarget_eq hturned
  exact h.replaceTypes_eq hfits hreplaced

end Unaffected

/-- A class with nothing to change is reproduced byte for byte. The bytes are read, and what is read
would be written as the same bytes; then what is adapted is written as the same bytes as well. -/
theorem adapt_reproduces {bytes written : Bytes} (hread : ClassFile.ofBytes bytes = .ok file)
    (hkept : file.toBytes = .ok bytes) (hunaffected : file.Unaffected options analysis)
    (hadapt : file.adapt options analysis = .ok adapted)
    (hwrite : adapted.toBytes = .ok written) : written = bytes := by
  obtain rfl := hunaffected.adapt_eq (ClassFile.fits_of_ofBytes hread) hadapt
  exact Except.ok.inj (hwrite.symm.trans hkept)

end ClassFile

section Kept

/-- Only other annotations are omitted, and no call of a method of the interface may be turned. -/
def keepingOptions : Options :=
  { userOptions with
    omitted := Std.ExtTreeSet.ofList ["Lp/Other;"]
    owners := some (Std.ExtTreeSet.ofList ["p/K"]) }

/-- The method of the interface has moved, and a class that is never mentioned is replaced. -/
def distantAnalysis : Analysis :=
  { Retarget.movedInterface with types := (∅ : NameMap).insert "p/K" "p/L" }

def userCode : Code where
  maxStack := 1
  maxLocals := 0
  bytes := [0xB9, 0, 10, 1, 0, 0xB1]
  handlers := []
  attributes := [⟨15, [0, 1, 0, 5, 0, 7]⟩]

theorem eq_userCode_of_hasCode {code : Code} (h : markedUser.HasCode code) : code = userCode := by
  obtain ⟨method, hmethod, attr, hattr, hsort, hdecode⟩ := h
  obtain rfl := List.mem_singleton.mp hmethod
  simp only [List.mem_cons, List.not_mem_nil, or_false] at hattr
  rcases hattr with rfl | rfl
  · cases hsort
  · exact (Except.ok.inj hdecode).symm

theorem spares_annotation :
    Omission.Spares keepingOptions.omitted markedUser.pool .method ⟨13, [0, 1, 0, 14, 0, 0]⟩ := by
  have hlists (uses : List AnnotationUse)
      (h : Omission.Lists markedUser.pool .method ⟨13, [0, 1, 0, 14, 0, 0]⟩ uses) :
      uses = [⟨14, []⟩] := by
    cases h with
    | annotations _ _ _ hdecode => exact (Except.ok.inj hdecode).symm
    | typeAnnotations hsort hannotations =>
      cases hsort
      simp at hannotations
  refine ⟨?_, ?_, ?_, ?_⟩
  · intro uses h use huse descriptor hdescriptor
    rw [hlists uses h, List.mem_singleton] at huse
    subst huse
    obtain rfl : "Lp/Api;" = descriptor := Except.ok.inj hdescriptor
    decide
  · intro h
    cases hlists [] h
  · rintro - uses ⟨_, _, hsort, hannotations, -⟩
    cases hsort
    simp at hannotations
  · rintro - hsort
    cases hsort

theorem spares_markedUser {place : Omission.Place} {attr : Attribute}
    (h : markedUser.HasAttribute place attr) :
    Omission.Spares keepingOptions.omitted markedUser.pool place attr := by
  cases h with
  | ofClass hattr => cases hattr
  | ofField hfield => cases hfield
  | ofMethod hmethod hattr =>
    obtain rfl := List.mem_singleton.mp hmethod
    simp only [List.mem_cons, List.not_mem_nil, or_false] at hattr
    rcases hattr with rfl | rfl
    · exact spares_annotation
    · exact Omission.spares_of_sort (some .code) rfl rfl
  | ofCode hcode hattr =>
    obtain rfl := eq_userCode_of_hasCode hcode
    obtain rfl := List.mem_singleton.mp hattr
    exact Omission.spares_of_sort none rfl rfl

theorem typeText_markedUser {kind : TypeSubstitution.TextKind} {index : UInt16}
    (h : markedUser.TypeText kind index) :
    (kind = .className ∧ (index = 1 ∨ index = 6 ∨ index = 11)) ∨ kind = .descriptor ∧ index = 4 := by
  have hmember (member : Member) (hmem : member ∈ markedUser.fields ++ markedUser.methods) :
      member.descriptor = 4 ∧
        ∀ attr ∈ member.attributes, attr.sort markedUser.pool ≠ .ok (some .signature) := by
    obtain rfl := List.mem_singleton.mp hmem
    decide
  have hvariable {sort : AttributeName} {var : LocalVariable} :
      ¬ markedUser.HasVariable sort var := by
    rintro ⟨method, hmethod, attr, hattr, code, hsort, hdecode, inner, hinner, table, hinnerSort, -⟩
    obtain rfl := eq_userCode_of_hasCode ⟨method, hmethod, attr, hattr, hsort, hdecode⟩
    obtain rfl := List.mem_singleton.mp hinner
    cases hinnerSort
  cases h with
  | className hentry =>
    have hmem := TypeSubstitution.mem_slots_of_entry hentry
    exact .inl ⟨rfl, by simpa [markedUser] using hmem⟩
  | nameAndType hentry =>
    have hmem := TypeSubstitution.mem_slots_of_entry hentry
    obtain ⟨-, htype⟩ : _ ∧ index = 4 := by simpa [markedUser] using hmem
    exact .inr ⟨rfl, htype⟩
  | methodType hentry =>
    have hmem := TypeSubstitution.mem_slots_of_entry hentry
    simp [markedUser] at hmem
  | member hmem => exact .inr ⟨rfl, (hmember _ hmem).1⟩
  | signature hattr hsort =>
    obtain ⟨member, hmem, hattr⟩ := List.mem_flatMap.mp hattr
    exact absurd hsort ((hmember member hmem).2 _ hattr)
  | variableType hvar => exact absurd hvar hvariable
  | variableSignature hvar => exact absurd hvar hvariable

theorem mentions_markedUser {name : String} (h : markedUser.Mentions name) :
    name = "p/B" ∨ name = "p/I" ∨ name = "java/lang/Object" := by
  obtain ⟨kind, index, text, htext, hindex, hmentions⟩ := h
  have hclass (plain : text.toList.head? ≠ some '[')
      (hmentions : TypeSubstitution.TextKind.className.Mentions text name) : name = text := by
    cases hmentions with
    | className => rfl
    | arrayClass hhead => exact absurd hhead plain
  rcases typeText_markedUser htext with ⟨rfl, rfl | rfl | rfl⟩ | ⟨rfl, rfl⟩
  · obtain rfl : "p/B" = text := Except.ok.inj hindex
    exact .inl (hclass (by decide) hmentions)
  · obtain rfl : "p/I" = text := Except.ok.inj hindex
    exact .inr (.inl (hclass (by decide) hmentions))
  · obtain rfl : "java/lang/Object" = text := Except.ok.inj hindex
    exact .inr (.inr (hclass (by decide) hmentions))
  · obtain rfl : "()V" = text := Except.ok.inj hindex
    cases hmentions with
    | field htype => exact absurd (by decide) (TypeSubstitution.head?_of_field htype).1
    | method hmethod hname =>
      have hread : (MethodDescriptor.ofDescriptor "()V").toOption.map MethodDescriptor.classNames =
          some [] := by decide +kernel
      rw [hmethod] at hread
      rw [Option.some.inj hread] at hname
      cases hname

theorem unaffected_markedUser : markedUser.Unaffected keepingOptions distantAnalysis where
  attributes _ _ := spares_markedUser
  instructions := by
    intro code instructions hcode hdecode instruction hmem
    obtain rfl := eq_userCode_of_hasCode hcode
    have hread : Instruction.decode userCode.bytes =
        .ok [⟨0, 0xB9, [0, 10, 1, 0]⟩, ⟨5, 0xB1, []⟩] := by decide +kernel
    obtain rfl := Except.ok.inj (hread.symm.trans hdecode)
    simp only [List.mem_cons, List.not_mem_nil, or_false] at hmem
    constructor
    · rintro access index key haction -
      rcases hmem with rfl | rfl
      · cases haction
      · cases haction
    · intro kind index key haction hkey heligible
      rcases hmem with rfl | rfl
      · obtain ⟨rfl, rfl⟩ : kind = .interface ∧ index = 10 := by cases haction; exact ⟨rfl, rfl⟩
        obtain rfl : ⟨"p/I", "m", "()V"⟩ = key := Except.ok.inj hkey
        exact absurd heligible (by decide)
      · cases haction
  lambdas := by
    intro table htable bootstrap hmem
    obtain rfl : [] = table := Except.ok.inj htable
    cases hmem
  types := by
    intro name hmentions
    rcases mentions_markedUser hmentions with rfl | rfl | rfl <;> decide +kernel

/-- The class keeps its bytes, though the method that it calls has moved. -/
theorem adapt_reproduces_markedUser : ∃ bytes adapted, ClassFile.ofBytes bytes = .ok markedUser ∧
    markedUser.toBytes = .ok bytes ∧ bytes.length = 211 ∧
    markedUser.Unaffected keepingOptions distantAnalysis ∧
    markedUser.adapt keepingOptions distantAnalysis = .ok adapted ∧
    adapted.toBytes = .ok bytes := by
  have hwrites : (markedUser.toBytes.toOption.bind fun bytes =>
      (ClassFile.ofBytes bytes).toOption.map fun file => (file, bytes.length)) =
        some (markedUser, 211) := by decide +kernel
  have hrun : ((markedUser.adapt keepingOptions distantAnalysis).toOption.bind fun adapted =>
      adapted.toBytes.toOption).isSome = true := by decide +kernel
  obtain ⟨bytes, hbytes, hback⟩ := Option.bind_eq_some_iff.mp hwrites
  obtain ⟨file, hfile, hsame⟩ := Option.map_eq_some_iff.mp hback
  obtain ⟨rfl, hlength⟩ := Prod.mk.inj hsame
  obtain ⟨written, hwritten⟩ := Option.isSome_iff_exists.mp hrun
  obtain ⟨adapted, hadapted, hwrite⟩ := Option.bind_eq_some_iff.mp hwritten
  have hread := toOption_eq_some.mp hfile
  have hkept := toOption_eq_some.mp hbytes
  have hadapt := toOption_eq_some.mp hadapted
  obtain rfl := ClassFile.adapt_reproduces hread hkept unaffected_markedUser hadapt
    (toOption_eq_some.mp hwrite)
  exact ⟨_, adapted, hread, hkept, hlength, unaffected_markedUser, hadapt,
    toOption_eq_some.mp hwrite⟩

end Kept

end StaticCompanion
