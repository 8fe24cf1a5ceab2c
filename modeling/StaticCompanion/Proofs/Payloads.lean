import StaticCompanion.ClassFile.Code
import StaticCompanion.ClassFile.TypeAnnotations
import StaticCompanion.Proofs.ElementValues

namespace StaticCompanion

open Format

namespace TypeTarget

/-- The ranges of a local variable are the only list in a target. -/
def Fits : TypeTarget → Prop
  | localVariable _ ranges => ranges.length < span 2
  | _ => True

theorem write_eq_ok {target : TypeTarget} {bytes : Bytes} : format.write target = .ok bytes ↔
    ∃ operands, target.writeOperands = .ok operands ∧ bytes = target.number :: operands := by
  simp only [TypeTarget.format, except_bind_eq_ok, except_pure_eq_ok]
  simp only [eq_comm]

theorem exact_ranges :
    (Format.list 2 LiveRange.format).Exact fun ranges => ranges.length < span 2 := by
  have hrange : LiveRange.format.Exact fun _ => True :=
    (exact_u16.seq (exact_u16.seq exact_u16)).map (fun _ => rfl) (fun _ => rfl) (by simp)
  refine ⟨(hrange.list 2).writesBack, (hrange.list 2).readsBack, fun ranges => ?_⟩
  rw [(hrange.list 2).writes]
  exact ⟨fun h => h.length_lt, fun h => ⟨h, fun _ _ => trivial⟩⟩

section Operands
variable {α : Type} {operands : Format α}

theorem writesBack_of_operands {make : α → TypeTarget} {number : UInt8} {bytes rest : Bytes}
    {target : TypeTarget} (h : (make <$> operands.read) bytes = .ok (target, rest))
    (hback : operands.WritesBack) (hnumber : ∀ value, (make value).number = number)
    (hwrite : ∀ value, (make value).writeOperands = operands.write value) :
    ∃ front, format.write target = .ok front ∧ number :: bytes = front ++ rest := by
  obtain ⟨value, hvalue, rfl⟩ := stateT_map_eq_ok.mp h
  obtain ⟨part, hpart, rfl⟩ := hback hvalue
  refine ⟨number :: part, write_eq_ok.mpr ⟨part, ?_, ?_⟩, rfl⟩
  · rw [hwrite, hpart]
  · rw [hnumber]

theorem readsBackAt_of_operands (make : α → TypeTarget) (value : α) (hback : operands.ReadsBack)
    (hread : readOperands (make value).number = make <$> operands.read)
    (hwrite : (make value).writeOperands = operands.write value) :
    format.ReadsBackAt (make value) := by
  intro bytes hbytes rest
  obtain ⟨part, hpart, rfl⟩ := write_eq_ok.mp hbytes
  rw [hwrite] at hpart
  refine stateT_bind_eq_ok.mpr ⟨(make value).number, part ++ rest, rfl, ?_⟩
  rw [hread]
  exact stateT_map_eq_ok.mpr ⟨value, hback value hpart rest, rfl⟩

end Operands

theorem writesBack : TypeTarget.format.WritesBack := by
  intro bytes target rest h
  obtain ⟨number, middle, hnumber, hrest⟩ := stateT_bind_eq_ok.mp h
  obtain ⟨_, hfront, rfl⟩ := writesBack_u8 hnumber
  obtain rfl := Except.ok.inj hfront
  clear h
  have hpair := writesBack_u8.seq writesBack_u8
  have hargument := writesBack_u16.seq writesBack_u8
  unfold readOperands at hrest
  -- one case for each number; those of one layout differ in the target that is made only
  split at hrest
  all_goals first
    | exact writesBack_of_operands hrest writesBack_u8 (fun _ => rfl) (fun _ => rfl)
    | exact writesBack_of_operands hrest writesBack_u16 (fun _ => rfl) (fun _ => rfl)
    | exact writesBack_of_operands hrest hpair (fun _ => rfl) (fun _ => rfl)
    | exact writesBack_of_operands hrest hargument (fun _ => rfl) (fun _ => rfl)
    | exact writesBack_of_operands hrest exact_ranges.writesBack (fun _ => rfl) (fun _ => rfl)
    | (obtain ⟨rfl, rfl⟩ := stateT_pure_eq_ok.mp hrest
       exact ⟨_, rfl, rfl⟩)
    | cases hrest

theorem readsBack : TypeTarget.format.ReadsBack := by
  have hpair := readsBack_u8.seq readsBack_u8
  have hargument := readsBack_u16.seq readsBack_u8
  intro target
  cases target with
  | typeParameter site index =>
    refine readsBackAt_of_operands (typeParameter site) index readsBack_u8 ?_ rfl
    cases site <;> rfl
  | superType index => exact readsBackAt_of_operands superType index readsBack_u16 rfl rfl
  | typeParameterBound site parameter bound =>
    refine readsBackAt_of_operands (fun pair => typeParameterBound site pair.1 pair.2)
      (parameter, bound) hpair ?_ rfl
    cases site <;> rfl
  | sole site =>
    intro bytes hbytes rest
    obtain ⟨_, hnone, rfl⟩ := write_eq_ok.mp hbytes
    obtain rfl := Except.ok.inj hnone
    cases site <;> rfl
  | formalParameter index =>
    exact readsBackAt_of_operands formalParameter index readsBack_u8 rfl rfl
  | throws index => exact readsBackAt_of_operands throws index readsBack_u16 rfl rfl
  | localVariable site ranges =>
    refine readsBackAt_of_operands (localVariable site) ranges exact_ranges.readsBack ?_ rfl
    cases site <;> rfl
  | «catch» index => exact readsBackAt_of_operands .catch index readsBack_u16 rfl rfl
  | offset expression pc =>
    refine readsBackAt_of_operands (offset expression) pc readsBack_u16 ?_ rfl
    cases expression <;> rfl
  | typeArgument expression pc argument =>
    refine readsBackAt_of_operands (fun pair => typeArgument expression pair.1 pair.2)
      (pc, argument) hargument ?_ rfl
    cases expression <;> rfl

theorem exact_format : TypeTarget.format.Exact Fits := by
  refine ⟨writesBack, readsBack, fun target => ?_⟩
  have hwrites : (∃ bytes, format.write target = .ok bytes) ↔
      ∃ operands, target.writeOperands = .ok operands := by
    simp only [write_eq_ok]
    exact ⟨fun ⟨_, operands, h, _⟩ => ⟨operands, h⟩, fun ⟨operands, h⟩ => ⟨_, operands, h, rfl⟩⟩
  rw [hwrites]
  cases target with
  | localVariable site ranges => exact exact_ranges.writes ranges
  | _ => exact iff_of_true ⟨_, rfl⟩ trivial

end TypeTarget

/-- The lists of a type annotation fit their counts: the ranges of its target, its path, and those
of the annotation. -/
structure TypeAnnotationUse.Fits (use : TypeAnnotationUse) : Prop where
  target : use.target.Fits
  path : use.path.length < span 1
  content : use.content.Fits

theorem TypeAnnotationUse.exact_format : TypeAnnotationUse.format.Exact Fits := by
  have hpath := (exact_u8.seq exact_u8).list 1
  have hparts := TypeTarget.exact_format.seq (hpath.seq AnnotationUse.exact_format)
  refine hparts.map (fun _ => rfl) (fun _ => rfl) fun use => ?_
  constructor
  · rintro ⟨htarget, hpath, hcontent⟩
    exact ⟨htarget, hpath.length_lt, hcontent⟩
  · rintro ⟨htarget, hlen, hcontent⟩
    exact ⟨htarget, ⟨hlen, fun _ _ => ⟨trivial, trivial⟩⟩, hcontent⟩

def Attribute.Fits (attr : Attribute) : Prop := attr.info.length < span 4

theorem Attribute.exact_format : Attribute.format.Exact Fits :=
  (exact_u16.seq (exact_blob 4)).map (fun _ => rfl) (fun _ => rfl) fun _ =>
    iff_of_eq (true_and _)

theorem Handler.exact_format : Handler.format.Exact fun _ => True :=
  (exact_u16.seq (exact_u16.seq (exact_u16.seq exact_u16))).map (fun _ => rfl) (fun _ => rfl)
    (by simp)

theorem LocalVariable.exact_format : LocalVariable.format.Exact fun _ => True :=
  (exact_u16.seq (exact_u16.seq (exact_u16.seq (exact_u16.seq exact_u16)))).map (fun _ => rfl)
    (fun _ => rfl) (by simp)

/-- The instructions, the handlers and the attributes fit their counts, and so do the payloads of
the attributes. -/
structure Code.Fits (code : Code) : Prop where
  bytes : code.bytes.length < span 4
  handlers : code.handlers.length < span 2
  attributes : ListFits 2 Attribute.Fits code.attributes

theorem Code.exact_format : Code.format.Exact Fits := by
  have htables := (Handler.exact_format.list 2).seq (Attribute.exact_format.list 2)
  have hparts := exact_u16.seq (exact_u16.seq ((exact_blob 4).seq htables))
  refine hparts.map (fun _ => rfl) (fun _ => rfl) fun code => ?_
  constructor
  · rintro ⟨-, -, hbytes, hhandlers, hattributes⟩
    exact ⟨hbytes, hhandlers.length_lt, hattributes⟩
  · rintro ⟨hbytes, hlen, hattributes⟩
    exact ⟨trivial, trivial, hbytes, ⟨hlen, fun _ _ => trivial⟩, hattributes⟩

def Bootstrap.Fits (bootstrap : Bootstrap) : Prop := bootstrap.arguments.length < span 2

theorem Bootstrap.exact_format : Bootstrap.format.Exact Fits := by
  refine (exact_u16.seq (exact_u16.list 2)).map (fun _ => rfl) (fun _ => rfl) fun bootstrap => ?_
  constructor
  · rintro ⟨-, harguments⟩
    exact harguments.length_lt
  · intro hlen
    exact ⟨trivial, hlen, fun _ _ => trivial⟩

/-- What a payload, or a part of one, is made of. -/
inductive Payload where
  | number | attr | code | handler | localVariable | bootstrap
  | element | annotation | parameterAnnotations | typeAnnotation
  | list (item : Payload)
  deriving DecidableEq, Repr

namespace Payload

@[reducible] def Value : Payload → Type
  | number => UInt16
  | attr => Attribute
  | code => Code
  | handler => Handler
  | localVariable => LocalVariable
  | bootstrap => Bootstrap
  | element => ElementValue
  | annotation => AnnotationUse
  | parameterAnnotations => List (List AnnotationUse)
  | typeAnnotation => TypeAnnotationUse
  | list item => List item.Value

def format : (kind : Payload) → Format kind.Value
  | number => u16
  | attr => Attribute.format
  | code => Code.format
  | handler => Handler.format
  | localVariable => LocalVariable.format
  | bootstrap => Bootstrap.format
  | element => ElementValue.format
  | annotation => AnnotationUse.format
  | parameterAnnotations => AnnotationUse.parametersFormat
  | typeAnnotation => TypeAnnotationUse.format
  | list item => Format.list 2 item.format

/-- Every list in a value is no longer than the count in front of it can tell. -/
def Fits : (kind : Payload) → kind.Value → Prop
  | number | handler | localVariable => fun _ => True
  | attr => Attribute.Fits
  | code => Code.Fits
  | bootstrap => Bootstrap.Fits
  | element => ElementValue.Fits
  | annotation => AnnotationUse.Fits
  | parameterAnnotations => ListFits 1 (ListFits 2 AnnotationUse.Fits)
  | typeAnnotation => TypeAnnotationUse.Fits
  | list item => ListFits 2 item.Fits

theorem exact_format (kind : Payload) : kind.format.Exact kind.Fits := by
  induction kind with
  | number => exact exact_u16
  | attr => exact Attribute.exact_format
  | code => exact Code.exact_format
  | handler => exact Handler.exact_format
  | localVariable => exact LocalVariable.exact_format
  | bootstrap => exact Bootstrap.exact_format
  | element => exact ElementValue.exact_format
  | annotation => exact AnnotationUse.exact_format
  | parameterAnnotations => exact (AnnotationUse.exact_format.list 2).list 1
  | typeAnnotation => exact TypeAnnotationUse.exact_format
  | list item ih => exact ih.list 2

variable (kind : Payload) (attr : Attribute) (value : kind.Value)

/-- What is decoded is encoded as the payload it was decoded from. The values whose lists fit their
counts are those that are encoded, and what they are encoded as decodes to them. -/
theorem decode_encode_inverse :
    (kind.format.decode attr.info = .ok value → attr.encode kind.format value = .ok attr) ∧
      (kind.Fits value ↔ ∃ attr', attr.encode kind.format value = .ok attr' ∧
        attr'.name = attr.name ∧ kind.format.decode attr'.info = .ok value) := by
  have hexact := kind.exact_format
  constructor
  · intro hdecode
    have hwrite := hexact.writesBack.decode hdecode
    exact Attribute.encode_eq_ok_iff.mpr ⟨attr.info, hwrite, rfl⟩
  · rw [← hexact.writes]
    constructor
    · rintro ⟨info, hwrite⟩
      have hencode : attr.encode kind.format value = .ok ⟨attr.name, info⟩ :=
        Attribute.encode_eq_ok_iff.mpr ⟨info, hwrite, rfl⟩
      exact ⟨_, hencode, Attribute.encode_eq_ok hexact.readsBack hencode⟩
    · rintro ⟨attr', hencode, -⟩
      obtain ⟨info, hwrite, -⟩ := Attribute.encode_eq_ok_iff.mp hencode
      exact ⟨info, hwrite⟩

/-- An annotation on the type of a local variable, with an annotation in an array in it. -/
def nestedUse : TypeAnnotationUse where
  target := .localVariable .variable [⟨0, 5, 1⟩]
  path := [(3, 0)]
  content := ⟨7, [(2, .array [.const .int 3, .nested 4 [(5, .class 6)]])]⟩

def nestedInfo : Bytes :=
  [0x00, 0x01, 0x40, 0x00, 0x01, 0x00, 0x00, 0x00, 0x05, 0x00, 0x01, 0x01, 0x03, 0x00, 0x00, 0x07,
    0x00, 0x01, 0x00, 0x02, 0x5B, 0x00, 0x02, 0x49, 0x00, 0x03, 0x40, 0x00, 0x04, 0x00, 0x01, 0x00,
    0x05, 0x63, 0x00, 0x06]

theorem fits_nestedUse : nestedUse.Fits := by
  have hnested : (ElementValue.nested 4 [(5, .class 6)]).Fits := by
    refine .nested 4 (by decide) fun element hmem => ?_
    obtain rfl := List.mem_singleton.mp hmem
    exact .class 6
  have harray : (ElementValue.array [.const .int 3, .nested 4 [(5, .class 6)]]).Fits := by
    refine .array (by decide) ?_
    simp only [List.forall_mem_cons, List.not_mem_nil, false_imp_iff, implies_true, and_true]
    exact ⟨.const .int 3, hnested⟩
  have hranges : nestedUse.target.Fits := show 1 < span 2 by decide
  refine ⟨hranges, by decide, by decide, fun element hmem => ?_⟩
  obtain rfl := List.mem_singleton.mp hmem
  exact harray

theorem decode_encode_inverse_of_nested :
    (list typeAnnotation).format.decode nestedInfo = .ok [nestedUse] ∧
      Attribute.encode ⟨9, nestedInfo⟩ (list typeAnnotation).format [nestedUse] =
        .ok ⟨9, nestedInfo⟩ ∧
      (list typeAnnotation).Fits [nestedUse] ∧
      ∃ attr', Attribute.encode ⟨9, []⟩ (list typeAnnotation).format [nestedUse] = .ok attr' ∧
        attr'.name = 9 ∧ (list typeAnnotation).format.decode attr'.info = .ok [nestedUse] := by
  have hdecode : (list typeAnnotation).format.decode nestedInfo = .ok [nestedUse] := by rfl
  have hfits : (list typeAnnotation).Fits [nestedUse] := by
    refine ⟨by decide, fun use hmem => ?_⟩
    obtain rfl := List.mem_singleton.mp hmem
    exact fits_nestedUse
  have hencode := (decode_encode_inverse (list typeAnnotation) ⟨9, nestedInfo⟩ _).1 hdecode
  have hback := (decode_encode_inverse (list typeAnnotation) ⟨9, []⟩ _).2.mp hfits
  exact ⟨hdecode, hencode, hfits, hback⟩

end Payload

end StaticCompanion
