import StaticCompanion.Proofs.InPlace
import StaticCompanion.Proofs.Passes

/-!
# What adapting a class leaves alone

Each of the three passes decodes, edits and encodes anew what it is about. Nothing around that
moves: offsets into code and indices into the pool, which no pass recomputes, keep their meaning.
What may become of an attribute is told by its sort and its place.
-/
namespace StaticCompanion

open Omission (Place)

namespace Omission.Place

/-- Attributes from which something is left out, and which may go. -/
def thins (place : Place) : AttributeName → Bool
  | .visibleAnnotations | .invisibleAnnotations => place ≠ .code
  | .visibleTypeAnnotations | .invisibleTypeAnnotations => true
  | .visibleParameterAnnotations | .invisibleParameterAnnotations | .methodParameters =>
    place = .method
  | _ => false

/-- Attributes of which other ones may take the place. -/
def rewrites (place : Place) : AttributeName → Bool
  | .signature => place ≠ .code
  | .code => place = .method
  | .bootstrapMethods => place = .class
  | .localVariableTable | .localVariableTypeTable => place = .code
  | _ => false

end Omission.Place

/-- What may become of an attribute by its sort and its place. -/
def Attribute.framed (pool : ConstantPool) (place : Place) : AttributePass := fun attr last =>
  ∃ sort, attr.sort pool = .ok sort ∧
    if sort.any place.thins then attr.KeepsName last
    else if sort.any place.rewrites then ∃ attr', last = some attr' ∧ attr'.name = attr.name
    else last = some attr

namespace Retarget

/-- The row starts where the instruction starts. Only a call through an interface of a method that
has moved gives way to further instructions, all of them inside of its five bytes. -/
def KeepsStart (analysis : Analysis) (owners : Option NameSet) (pool : ConstantPool)
    (instruction : Instruction) (row : List Instruction) : Prop :=
  row.map Instruction.pc = [instruction.pc] ∨
    ∃ index index', instruction.action = .call .interface index ∧
      (∀ key, pool.member index = .ok key →
        eligible owners key = true ∧ key ∈ analysis.methods) ∧
      row = [⟨instruction.pc, CallKind.static.opcode, bigEndian 2 (UInt16.toNat index')⟩,
        ⟨instruction.pc + 3, Instruction.nop, []⟩, ⟨instruction.pc + 4, Instruction.nop, []⟩]

theorem keepsStart_of_inPlace {analysis : Analysis} {owners : Option NameSet}
    {p pool : ConstantPool} (hle : p ≤ pool) {instruction : Instruction} {row : List Instruction}
    (h : InPlace analysis owners pool instruction row) :
    KeepsStart analysis owners p instruction row := by
  unfold InPlace at h
  split at h
  · obtain ⟨key, -, h⟩ := h
    split at h
    · rw [h]
      exact .inl rfl
    · obtain ⟨index', -, rfl⟩ := h
      exact .inl rfl
  · rename_i kind index haction
    obtain ⟨key, hkey, h⟩ := h
    split at h
    · rw [h]
      exact .inl rfl
    · rename_i moved hmoved
      obtain ⟨index', -, rfl⟩ := h
      by_cases hinterface : kind = .interface
      · rw [if_pos hinterface]
        refine .inr ⟨index, index', hinterface ▸ haction, ?_, rfl⟩
        intro key' hkey'
        obtain rfl := Except.ok.inj (hkey.symm.trans (ConstantPool.member_of_le hle hkey'))
        split at hmoved
        · rename_i heligible
          refine ⟨heligible, ?_⟩
          rw [Std.ExtTreeMap.mem_iff_isSome_getElem?, hmoved]
          rfl
        · cases hmoved
      · rw [if_neg hinterface]
        exact .inl rfl
  · rw [h]
    exact .inl rfl

end Retarget

/-- The code keeps its frame, its handlers and its length, its instructions keep their places, and
its attributes are left alone but for those that are about types. -/
structure Code.Framed (analysis : Analysis) (owners : Option NameSet) (pool : ConstantPool)
    (code code' : Code) : Prop where
  maxStack : code'.maxStack = code.maxStack
  maxLocals : code'.maxLocals = code.maxLocals
  handlers : code'.handlers = code.handlers
  length : code'.bytes.length = code.bytes.length
  starts : ∃ instructions rows, Instruction.decode code.bytes = .ok instructions ∧
    Instruction.decode code'.bytes = .ok rows.flatten ∧
    List.Forall₂ (Retarget.KeepsStart analysis owners pool) instructions rows
  attributes : (Attribute.framed pool .code).OnList code.attributes code'.attributes

/-- What may become of an attribute of a class, of a field or of a method, with the code of
methods looked into. -/
def ClassFile.frame (analysis : Analysis) (owners : Option NameSet) (pool : ConstantPool)
    (place : Place) : AttributePass := fun attr last =>
  attr.framed pool place last ∧
    (place = .method → attr.nameIn pool = .ok AttributeName.code.text →
      ∃ attr' code code', last = some attr' ∧ Code.format.decode attr.info = .ok code ∧
        Code.format.decode attr'.info = .ok code' ∧ code.Framed analysis owners pool code')

section Passes
variable {omitted : NameSet} {analysis : Analysis} {owners : Option NameSet}
  {p pool q : ConstantPool} {R : TypeSubstitution.TextRelation} {place : Place}
  {attr : Attribute} {left : Option Attribute} {sort : Option AttributeName}

theorem Omission.framed_of_filterPlain
    (h : Omission.filterPlain omitted p place attr = .ok left) :
    ∃ sort, attr.sort p = .ok sort ∧
      if sort.any place.thins then attr.KeepsName left else left = some attr := by
  have hname := (Omission.filterPlain_eq_ok h).1
  simp only [Omission.filterPlain, except_bind_eq_ok, lift_class_eq_ok] at h
  obtain ⟨sort, hsort, h⟩ := h
  refine ⟨sort, hsort, ?_⟩
  by_cases hthins : sort.any place.thins = true
  · rwa [if_pos hthins]
  · rw [if_neg hthins]
    cases sort with
    | none => exact (except_pure_eq_ok.mp h).symm
    | some sort =>
      cases sort <;> cases place <;> first
        | exact (except_pure_eq_ok.mp h).symm
        | exact absurd rfl hthins

/-- Omitting annotations goes into the code of methods; otherwise it changes only attributes of
annotations and of parameters. -/
theorem Omission.framed_of_pass (h : Omission.pass omitted p place attr left) :
    ∃ sort, attr.sort p = .ok sort ∧
      if sort.any place.thins then attr.KeepsName left
      else if place = .method ∧ sort = some .code then
        ∃ attr', left = some attr' ∧ Omission.filterCode omitted p attr = .ok attr'
      else left = some attr := by
  obtain ⟨sort, hsort, h⟩ := Omission.filterAttribute_eq_ok.mp h
  by_cases hcode : place = .method ∧ sort = some .code
  · rw [if_pos hcode] at h
    obtain ⟨attr', hfilter, rfl⟩ := h
    refine ⟨sort, hsort, ?_⟩
    rw [if_neg (by rw [hcode.1, hcode.2]; decide), if_pos hcode]
    exact ⟨attr', rfl, hfilter⟩
  · rw [if_neg hcode] at h
    obtain ⟨sort', hsort', hframed⟩ := Omission.framed_of_filterPlain h
    obtain rfl := Except.ok.inj (hsort.symm.trans hsort')
    exact ⟨sort, hsort, by rwa [if_neg hcode]⟩

/-- Following moved members keeps names, and all attributes but code and tables of bootstrap
methods. -/
theorem Retarget.framed_of_pass (h : Retarget.pass analysis owners pool place attr left)
    (hsort : attr.sort pool = .ok sort) :
    ∃ attr', left = some attr' ∧ attr'.name = attr.name ∧
      (sort.any place.rewrites = false → attr' = attr) := by
  cases place with
  | method =>
    obtain ⟨attr', rfl, hturned⟩ := h
    refine ⟨attr', rfl, hturned.name_eq, ?_⟩
    intro hkept
    obtain ⟨sort', hsort', -, hsame⟩ := hturned
    obtain rfl := Except.ok.inj (hsort.symm.trans hsort')
    rwa [if_neg] at hsame
    rintro rfl
    cases hkept
  | «class» =>
    obtain ⟨attr', rfl, hsame | ⟨hname, htable⟩⟩ := h
    · exact ⟨attr', rfl, congrArg Attribute.name hsame, fun _ => hsame⟩
    · refine ⟨attr', rfl, hname, ?_⟩
      intro hkept
      obtain rfl := Except.ok.inj (hsort.symm.trans (Attribute.sort_eq_some_iff.mpr htable))
      cases hkept
  | field =>
    obtain ⟨attr', rfl, rfl⟩ := h
    exact ⟨_, rfl, rfl, fun _ => rfl⟩
  | code =>
    obtain ⟨attr', rfl, rfl⟩ := h
    exact ⟨_, rfl, rfl, fun _ => rfl⟩

theorem Omission.pass_of_filterPlain (h : Omission.filterPlain omitted p .code attr = .ok left) :
    Omission.pass omitted p .code attr left := by
  obtain ⟨-, sort, hsort, -⟩ := Omission.filterPlain_eq_ok h
  simp only [Omission.pass, Omission.filterAttribute, except_bind_eq_ok, lift_class_eq_ok]
  exact ⟨sort, hsort, by rwa [if_neg (by simp)]⟩

theorem Omission.passedBy_of_filterCode {attr' : Attribute}
    (h : Omission.filterCode omitted p attr = .ok attr') :
    attr'.name = attr.name ∧ ∃ code attributes, Code.format.decode attr.info = .ok code ∧
      Code.format.decode attr'.info = .ok { code with attributes } ∧
      (Omission.pass omitted p .code).OnList code.attributes attributes := by
  simp only [Omission.filterCode, except_bind_eq_ok, lift_class_eq_ok] at h
  obtain ⟨code, hdecode, attributes, hfilter, h⟩ := h
  have hkept : (Omission.pass omitted p .code).OnList code.attributes attributes := by
    obtain ⟨options, hoptions, rfl⟩ := except_filterMapM_eq_ok.mp hfilter
    exact ⟨options, hoptions.imp fun _ _ hplain => Omission.pass_of_filterPlain hplain, rfl⟩
  split at h
  · rename_i hsame
    obtain rfl := except_pure_eq_ok.mp h
    exact ⟨rfl, code, attributes, hdecode, hsame ▸ hdecode, hkept⟩
  · obtain ⟨hname, hdecode'⟩ := Attribute.encode_eq_ok Code.readsBack (lift_write_eq_ok.mp h)
    exact ⟨hname, code, attributes, hdecode, hdecode', hkept⟩

section Types
variable {attr' : Attribute} (hsort : attr.sort q = .ok sort)
include hsort

theorem TypeSubstitution.RelatedSignature.framed (hplace : place ≠ .code)
    (h : TypeSubstitution.RelatedSignature q R attr attr') :
    attr'.name = attr.name ∧ (sort.any place.rewrites = false → attr' = attr) := by
  obtain ⟨sort', hsort', h⟩ := h
  obtain rfl := Except.ok.inj (hsort.symm.trans hsort')
  split at h
  · rename_i hsignature
    refine ⟨h.1, ?_⟩
    intro hkept
    simp [hsignature, Place.rewrites, hplace] at hkept
  · exact ⟨congrArg Attribute.name h, fun _ => h⟩

theorem TypeSubstitution.RelatedMethodAttribute.framed
    (h : TypeSubstitution.RelatedMethodAttribute q R attr attr') :
    attr'.name = attr.name ∧ (sort.any Place.method.rewrites = false → attr' = attr) := by
  obtain ⟨sort', hsort', h⟩ := h
  obtain rfl := Except.ok.inj (hsort.symm.trans hsort')
  split at h
  · exact ⟨h.1, fun hkept => by cases hkept⟩
  · exact ⟨h.1, fun hkept => by cases hkept⟩
  · exact ⟨congrArg Attribute.name h, fun _ => h⟩

theorem TypeSubstitution.RelatedCodeAttribute.framed
    (h : TypeSubstitution.RelatedCodeAttribute q R attr attr') :
    attr'.name = attr.name ∧ (sort.any Place.code.rewrites = false → attr' = attr) := by
  obtain ⟨sort', hsort', h⟩ := h
  obtain rfl := Except.ok.inj (hsort.symm.trans hsort')
  split at h
  · exact ⟨h.1, fun hkept => by cases hkept⟩
  · exact ⟨h.1, fun hkept => by cases hkept⟩
  · exact ⟨congrArg Attribute.name h, fun _ => h⟩

/-- Replacing types keeps names, and all attributes but signatures, code and tables of local
variables. -/
theorem TypeSubstitution.framed_of_pass (h : TypeSubstitution.pass R q place attr left) :
    ∃ attr', left = some attr' ∧ attr'.name = attr.name ∧
      (sort.any place.rewrites = false → attr' = attr) := by
  obtain ⟨attr', rfl, rfl | hrelated⟩ := h
  · exact ⟨_, rfl, rfl, fun _ => rfl⟩
  · refine ⟨attr', rfl, ?_⟩
    cases place with
    | «class» => exact hrelated.framed hsort (by decide)
    | field => exact hrelated.framed hsort (by decide)
    | method => exact hrelated.framed hsort
    | code => exact hrelated.framed hsort

end Types

theorem TypeSubstitution.passedBy_of_code {attr' : Attribute} {code : Code}
    (h : TypeSubstitution.pass R q .method attr (some attr'))
    (hcode : attr.nameIn q = .ok AttributeName.code.text)
    (hdecode : Code.format.decode attr.info = .ok code) :
    ∃ attributes, Code.format.decode attr'.info = .ok { code with attributes } ∧
      (TypeSubstitution.pass R q .code).OnList code.attributes attributes := by
  obtain ⟨last, hlast, h⟩ := h
  obtain rfl := Option.some.inj hlast
  rcases h with rfl | hrelated
  · exact ⟨code.attributes, hdecode, .of_forall₂ (List.forall₂_same.mpr fun _ _ => .inl rfl)⟩
  · obtain ⟨sort, hsort, hrelated⟩ := hrelated
    obtain rfl := Except.ok.inj (hsort.symm.trans (Attribute.sort_eq_some_iff.mpr hcode))
    obtain ⟨-, code₁, code', hdecode₁, hdecode', attributes, rfl, hattributes⟩ := hrelated
    obtain rfl := Except.ok.inj (hdecode.symm.trans hdecode₁)
    exact ⟨attributes, hdecode', .of_forall₂ (hattributes.imp fun _ _ => Or.inr)⟩

section Adaptation
variable {options : Options} (hle : p ≤ pool) (hkeeps : pool.KeepsPlaces q)
include hle hkeeps

theorem framed_of_rewriting (hsort : attr.sort p = .ok sort)
    (h : rewriting options analysis pool q place attr left) :
    ∃ attr', left = some attr' ∧ attr'.name = attr.name ∧
      (sort.any place.rewrites = false → attr' = attr) := by
  obtain ⟨middle, hturned, hreplaced⟩ := h
  have hsort' := Attribute.sort_of_le hle hsort
  obtain ⟨turned, rfl, hname, hkept⟩ := Retarget.framed_of_pass hturned hsort'
  have hsort'' := hkeeps.sort ((Attribute.sort_of_name hname).trans hsort')
  obtain ⟨attr', rfl, hname', hkept'⟩ := TypeSubstitution.framed_of_pass hsort'' hreplaced
  exact ⟨attr', rfl, hname'.trans hname, fun hother => (hkept' hother).trans (hkept hother)⟩

theorem framed_of_adaptation (h : adaptation options analysis p pool q place attr left) :
    attr.framed p place left := by
  obtain ⟨middle, hfiltered, hrest⟩ := h
  obtain ⟨sort, hsort, hmiddle⟩ := Omission.framed_of_pass hfiltered
  have hrewriting {attr₁ : Attribute} (hname : attr₁.name = attr.name)
      (h : rewriting options analysis pool q place attr₁ left) :=
    framed_of_rewriting hle hkeeps ((Attribute.sort_of_name hname).trans hsort) h
  refine ⟨sort, hsort, ?_⟩
  by_cases hthins : sort.any place.thins = true
  · rw [if_pos hthins] at hmiddle ⊢
    cases middle with
    | none =>
      subst hrest
      trivial
    | some attr₁ =>
      obtain ⟨attr', rfl, hname, -⟩ := hrewriting hmiddle hrest
      exact hname.trans hmiddle
  · rw [if_neg hthins] at hmiddle ⊢
    by_cases hcode : place = .method ∧ sort = some .code
    · rw [if_pos hcode] at hmiddle
      rw [if_pos (by rw [hcode.1, hcode.2]; decide)]
      obtain ⟨attr₁, rfl, hfilter⟩ := hmiddle
      have hname := (Omission.filterCode_eq_ok hfilter).1
      obtain ⟨attr', rfl, hname', -⟩ := hrewriting hname hrest
      exact ⟨attr', rfl, hname'.trans hname⟩
    · rw [if_neg hcode] at hmiddle
      subst hmiddle
      obtain ⟨attr', rfl, hname, hkept⟩ := hrewriting rfl hrest
      by_cases hrewrites : sort.any place.rewrites = true
      · rw [if_pos hrewrites]
        exact ⟨attr', rfl, hname⟩
      · rw [if_neg hrewrites, hkept (Bool.not_eq_true _ ▸ hrewrites)]

/-- Code with its annotations of types omitted, its references turned and its types replaced is
framed. -/
theorem framedCode_of_adaptation (h : adaptation options analysis p pool q .method attr left)
    (hcode : attr.nameIn p = .ok AttributeName.code.text) :
    ∃ attr' code code', left = some attr' ∧ Code.format.decode attr.info = .ok code ∧
      Code.format.decode attr'.info = .ok code' ∧
      code.Framed analysis options.owners p code' := by
  obtain ⟨middle, hfiltered, hrest⟩ := h
  obtain ⟨sort, hsort, hmiddle⟩ := Omission.framed_of_pass hfiltered
  obtain rfl := Except.ok.inj (hsort.symm.trans (Attribute.sort_eq_some_iff.mpr hcode))
  rw [if_neg (by decide), if_pos ⟨rfl, rfl⟩] at hmiddle
  obtain ⟨attr₁, rfl, hfilter⟩ := hmiddle
  obtain ⟨hname, code, kept, hdecode, hdecode₁, hkept⟩ := Omission.passedBy_of_filterCode hfilter
  obtain ⟨_, ⟨attr₂, rfl, hturned⟩, hreplaced⟩ := hrest
  obtain ⟨attr', rfl⟩ : ∃ attr', left = some attr' := by
    obtain ⟨attr', hleft, -⟩ := hreplaced
    exact ⟨attr', hleft⟩
  have hcode₁ : attr₁.nameIn pool = .ok AttributeName.code.text := by
    rw [Attribute.nameIn_eq_ok, hname]
    exact Attribute.nameIn_eq_ok.mp (Attribute.nameIn_of_le hle hcode)
  obtain ⟨code₁, bytes, hdecode₁', hdecode₂, hbytes⟩ := hturned.code hcode₁
  obtain rfl := Except.ok.inj (hdecode₁.symm.trans hdecode₁')
  have hcode₂ : attr₂.nameIn q = .ok AttributeName.code.text := by
    rw [Attribute.nameIn_eq_ok, hturned.name_eq]
    exact Attribute.nameIn_eq_ok.mp (hkeeps.nameIn hcode₁)
  obtain ⟨attributes, hdecode', hattributes⟩ :=
    TypeSubstitution.passedBy_of_code hreplaced hcode₂ hdecode₂
  obtain ⟨hlen, instructions, rows, hbefore, hafter, hrows⟩ := hbytes.inPlace
  have hstays : (Retarget.pass analysis options.owners pool .code).OnList kept kept :=
    .of_forall₂ (List.forall₂_same.mpr fun _ _ => rfl)
  have hnested : (adaptation options analysis p pool q .code).OnList code.attributes attributes :=
    hkept.andThen (hstays.andThen hattributes)
  refine ⟨attr', code, _, rfl, hdecode, hdecode', rfl, rfl, rfl, hlen, ?_, ?_⟩
  · exact ⟨instructions, rows, hbefore, hafter,
      hrows.imp fun _ _ hrow => Retarget.keepsStart_of_inPlace hle hrow⟩
  · exact hnested.imp fun _ _ hattr => framed_of_adaptation hle hkeeps hattr

end Adaptation

end Passes

/-- Adapting a class leaves code layout and unrelated structure alone. The class keeps its header,
and its members keep their order, their flags and their names. Attributes stay in their order; only
those of annotations and of parameters lose something or go, and of the others only signatures,
code and tables of bootstrap methods are written anew. Code keeps its length, and its instructions,
handlers and tables keep their places. Every constant stays where it is, up to the types that it
names. -/
theorem ClassFile.adapt_frame {file adapted : ClassFile} {options : Options} {analysis : Analysis}
    (hfits : file.pool.Fits) (h : file.adapt options analysis = .ok adapted) :
    file.pool.KeepsPlaces adapted.pool ∧
      file.PassedBy (frame analysis options.owners file.pool) adapted := by
  obtain ⟨pool, hle, hkeeps, hpassed⟩ := passedBy_of_adapt hfits h
  refine ⟨ConstantPool.keepsPlaces_of_le_left hle hkeeps, hpassed.imp ?_⟩
  intro place attr last hattr
  refine ⟨framed_of_adaptation hle hkeeps hattr, ?_⟩
  rintro rfl hcode
  exact framedCode_of_adaptation hle hkeeps hattr hcode

/-- A class with a marked static method that calls a method through an interface; its code has a
table of lines. -/
def markedUser : ClassFile :=
  let text (s : String) : Slot := .entry (.utf8 (.valid s))
  let code : Bytes := [0xB9, 0, 10, 1, 0, 0xB1]
  let lines : Bytes := [0, 15, 0, 0, 0, 6, 0, 1, 0, 5, 0, 7]
  { minorVersion := 0
    majorVersion := 52
    pool := ⟨#[.gap, text "p/B", .entry (.class 1), text "run", text "()V",
      text AttributeName.code.text, text "p/I", .entry (.class 6), text "m",
      .entry (.nameAndType 8 4), .entry (.memberRef .interfaceMethod 7 9), text "java/lang/Object",
      .entry (.class 11), text AttributeName.invisibleAnnotations.text, text "Lp/Api;",
      text "LineNumberTable"]⟩
    flags := ⟨0x0021⟩
    thisClass := 2
    superClass := 12
    interfaces := []
    fields := []
    methods := [⟨⟨0x0009⟩, 3, 4, [⟨13, [0, 1, 0, 14, 0, 0]⟩,
      ⟨5, bigEndian 2 1 ++ bigEndian 2 0 ++ bigEndian 4 6 ++ code ++ [0, 0, 0, 1] ++ lines⟩]⟩]
    attributes := [] }

def userOptions : Options where
  patterns := []
  supported := Std.ExtTreeSet.ofList ["p/Api"]
  omitted := Std.ExtTreeSet.ofList ["Lp/Api;"]
  owners := none
  types := ∅
  unselected := .copied

/-- The method of the interface has moved, and the interface is replaced. -/
def userAnalysis : Analysis :=
  { Retarget.movedInterface with types := (∅ : NameMap).insert "p/I" "p/J" }

/-- The annotation goes, the call becomes a static one, and the interface is another one; the frame
of the class stays. -/
theorem adapt_frame_of_markedUser :
    ∃ adapted, markedUser.adapt userOptions userAnalysis = .ok adapted ∧
      adapted.methods.map (fun method => method.attributes.map fun attr =>
        (attr.name, attr.info.drop 8)) =
        [[(5, [0xB8, 0, 20, 0, 0, 0xB1, 0, 0, 0, 1, 0, 15, 0, 0, 0, 6, 0, 1, 0, 5, 0, 7])]] ∧
      adapted.pool.className 7 = .ok "p/J" ∧
      markedUser.pool.KeepsPlaces adapted.pool ∧
      markedUser.PassedBy (ClassFile.frame userAnalysis none markedUser.pool) adapted := by
  have hrun : (markedUser.adapt userOptions userAnalysis).toOption.map (fun adapted =>
      (adapted.methods.map fun method => method.attributes.map fun attr =>
        (attr.name, attr.info.drop 8), (adapted.pool.className 7).toOption)) =
      some ([[(5, [0xB8, 0, 20, 0, 0, 0xB1, 0, 0, 0, 1, 0, 15, 0, 0, 0, 6, 0, 1, 0, 5, 0, 7])]],
        some "p/J") := by decide +kernel
  obtain ⟨adapted, hfound, hresult⟩ := Option.map_eq_some_iff.mp hrun
  obtain ⟨hmethods, hname⟩ := Prod.mk.inj hresult
  have hadapted := toOption_eq_some.mp hfound
  obtain ⟨hplaces, hpassed⟩ := ClassFile.adapt_frame (by decide) hadapted
  exact ⟨adapted, hadapted, hmethods, toOption_eq_some.mp hname, hplaces, hpassed⟩

end StaticCompanion
