import StaticCompanion.Proofs.DistinctMembers
import StaticCompanion.Proofs.TurnedClass

/-!
# Writes to the final fields of a companion

A final field keeps being final in the companion, and all accesses to it are turned, also those that
write it. Only the initializer of its class may write it, and this stays where it is. So whatever
writes a final field of the companion afterwards is the initializer of the class, or has named that
field before.
-/
namespace StaticCompanion

namespace ClassFile

/-- The instruction of the method at this place writes the static field with this key. -/
def WritesAt (file : ClassFile) (method : Member) (pc : Nat) (key : MemberKey) : Prop :=
  ∃ instruction index, method.HasInstruction file.pool instruction ∧ instruction.pc = pc ∧
    instruction.action = .field .putStatic index ∧ file.pool.member index = .ok key

/-- The class declares a final field with this key. -/
def DeclaresFinal (file : ClassFile) (key : MemberKey) : Prop :=
  file.name = .ok key.owner ∧ ∃ field ∈ file.fields,
    field.keyIn key.owner file.pool = .ok key ∧ field.flags.has AccessFlags.isFinal = true

/-- The bodies of methods can be read, and so can the fields that they access. -/
def ReadsAccesses (file : ClassFile) : Prop :=
  ∀ method ∈ file.methods, (∃ code, method.codeIn file.pool = .ok code) ∧
    ∀ instruction access index, method.HasInstruction file.pool instruction →
      instruction.action = .field access index → ∃ key, file.pool.member index = .ok key

end ClassFile

section Instructions
variable {p q : ConstantPool} {method copy : Member} {instruction : Instruction}

theorem Member.hasInstruction_of_le (hle : p ≤ q) {code : Option Code}
    (hcode : method.codeIn p = .ok code) :
    method.HasInstruction q instruction ↔ method.HasInstruction p instruction := by
  have hcode' := Member.codeIn_of_le hle hcode
  constructor
  · rintro ⟨body, instructions, hbody, hdecode, hmem⟩
    obtain rfl := Except.ok.inj (hcode'.symm.trans hbody)
    exact ⟨body, instructions, hcode, hdecode, hmem⟩
  · rintro ⟨body, instructions, hbody, hdecode, hmem⟩
    exact ⟨body, instructions, Member.codeIn_of_le hle hbody, hdecode, hmem⟩

end Instructions

section Turned
variable {analysis : Analysis} {owners : Option NameSet} {before after : ClassFile}

/-- A write stands where a write stood, to the field that the latter wrote or to where this has
moved. -/
theorem Retarget.TurnedClass.exists_writesAt (h : TurnedClass analysis owners before after)
    (hreads : before.ReadsAccesses) {method method' : Member}
    (hpair : (method, method') ∈ before.methods.zip after.methods) {pc : Nat} {key' : MemberKey}
    (hwrites : after.WritesAt method' pc key') :
    ∃ key, before.WritesAt method pc key ∧ key' = analysis.fields[key]?.getD key := by
  obtain ⟨instruction', index', hmem', rfl, haction', hkey'⟩ := hwrites
  have hmethod := (List.forall₂_iff_zip.mp h.methods).2 hpair
  obtain ⟨⟨code, hcode⟩, hmembers⟩ := hreads method (List.of_mem_zip hpair).1
  obtain ⟨instruction, row, hmem, hturned, hrow⟩ := hmethod.exists_instruction hmem'
  rw [Member.hasInstruction_of_le h.grows hcode] at hmem
  have hpc := hturned.pc_of_mem hrow (by simp [haction'])
  obtain ⟨index, key, haction, hkey, hmoved⟩ := hturned.access_of_mem hrow haction' hkey'
  obtain ⟨key₀, hkey₀⟩ := hmembers instruction _ index hmem haction
  obtain rfl := Except.ok.inj (hkey.symm.trans (ConstantPool.member_of_le h.grows hkey₀))
  exact ⟨key, ⟨instruction, index, hmem, hpc.symm, haction, hkey₀⟩, hmoved⟩

end Turned

namespace Companion
variable {analysis : Analysis} {owners : Option NameSet} {base companion turned : ClassFile}
  {owner : String}

theorem exists_final_of_companion (h : CompanionOf analysis base owner companion)
    (hturned : Retarget.TurnedClass analysis owners companion turned)
    (hkeeps : analysis.KeepsFieldNames) {key' : MemberKey} (hfinal : turned.DeclaresFinal key') :
    ∃ key, base.DeclaresFinal key ∧ key' = key.movedField := by
  obtain ⟨hname, copy, hcopy, hkey', hflags⟩ := hfinal
  obtain ⟨moving, hmoving, hcopies⟩ := h.fields
  rw [hturned.fields] at hcopy
  obtain ⟨⟨field, moved⟩, hmem, hcopied⟩ := forall₂_mem_right hcopies hcopy
  rw [movingFields_eq hmoving] at hmem
  obtain ⟨hfield, key, hkey, hvalue⟩ := mem_mappedMembers.mp hmem
  obtain rfl := hkeeps key moved hvalue
  refine ⟨key, ⟨?_, field, hfield, ?_, ?_⟩, ?_⟩
  · rw [(Member.keyIn_eq_ok.mp hkey).1, h.ofBase]
  · rwa [(Member.keyIn_eq_ok.mp hkey).1]
  · rwa [hcopied.flags, AccessFlags.has_toPublic (by decide)] at hflags
  · have hnamed := ClassFile.name_of_le hturned.grows hturned.thisClass h.named
    have howner := Except.ok.inj (hname.symm.trans hnamed)
    obtain ⟨-, hnameText, hdescriptor⟩ := Member.keyIn_eq_ok.mp hkey'
    obtain ⟨-, hnameText', hdescriptor'⟩ :=
      Member.keyIn_eq_ok.mp (Member.keyIn_of_le hturned.grows hcopied.key)
    refine MemberKey.ext ?_ (Except.ok.inj (hnameText.symm.trans hnameText'))
      (Except.ok.inj (hdescriptor.symm.trans hdescriptor'))
    rw [howner, MemberKey.movedField, (Member.keyIn_eq_ok.mp hkey).1]

/-- The method has a body, and this accesses no field. -/
def AccessesNothing (pool : ConstantPool) (method : Member) : Prop :=
  ∃ code instructions, method.codeIn pool = .ok (some code) ∧
    Instruction.decode code.bytes = .ok instructions ∧
    ∀ instruction ∈ instructions, ∀ access index, instruction.action ≠ .field access index

theorem AccessesNothing.of_le {p q : ConstantPool} (hle : p ≤ q) {method : Member}
    (h : AccessesNothing p method) : AccessesNothing q method := by
  obtain ⟨code, instructions, hcode, hrest⟩ := h
  exact ⟨code, instructions, Member.codeIn_of_le hle hcode, hrest⟩

theorem accessesNothing_grows :
    ConstantPool.Grows constructor fun first pool => AccessesNothing pool first := by
  intro p first p' hfits hrun
  simp only [constructor, state_bind_eq_ok, lift_change_eq_ok, state_lift_eq_ok,
    lift_write_eq_ok, state_pure_eq_ok] at hrun
  obtain ⟨index, p₁, hmember, codeName, p₂, hcodeName, name, p₃, hname, descriptor, p₄,
    hdescriptor, attr, _, ⟨hencode, rfl⟩, rfl, rfl⟩ := hrun
  obtain ⟨hle₁, hfits₁, -⟩ := ConstantPool.putMember_grows .method rootConstructor hfits hmember
  obtain ⟨hle₂, hfits₂, hcodeText⟩ := ConstantPool.putText_grows _ hfits₁ hcodeName
  obtain ⟨hle₃, hfits₃, -⟩ := ConstantPool.putText_grows _ hfits₂ hname
  obtain ⟨hle₄, hfits₄, -⟩ := ConstantPool.putText_grows _ hfits₃ hdescriptor
  have hlate := ConstantPool.le_trans hle₃ hle₄
  refine ⟨ConstantPool.le_trans hle₁ (ConstantPool.le_trans hle₂ hlate), hfits₄, ?_⟩
  obtain ⟨hattr, hdecode⟩ := Attribute.encode_eq_ok Code.readsBack hencode
  have hnamed : attr.nameIn p₄ = .ok AttributeName.code.text := by
    rw [Attribute.nameIn_eq_ok, hattr]
    exact ConstantPool.text_of_le hlate hcodeText
  refine ⟨_, [⟨0, 0x2A, []⟩, ⟨1, CallKind.special.opcode, bigEndian 2 index.toNat⟩,
      ⟨4, 0xB1, []⟩], Member.codeIn_eq_ok.mpr ⟨some attr, ?_, _, hdecode, rfl⟩, ?_, ?_⟩
  · exact Attribute.find?_cons_eq_ok.mpr ⟨_, hnamed, by rw [if_pos rfl]⟩
  · refine Instruction.decode_eq_ok.mpr ⟨⟨rfl, rfl, rfl, ?_, ?_⟩, ?_⟩
    · exact Instruction.complete_call_iff.mpr (by simp [length_bigEndian])
    · simp [Instruction.Tiles, Instruction.bytes, length_bigEndian]
      rfl
    · simp [Instruction.bytes, constructorBytes]
  · simp only [List.mem_cons, List.not_mem_nil, or_false]
    rintro instruction (rfl | rfl | rfl) access index haction
    · cases haction
    · obtain ⟨hopcode, -⟩ := Instruction.action_eq_field_iff.mp haction
      dsimp only at hopcode
      revert hopcode
      cases access <;> decide
    · cases haction

theorem accessesNothing_of_companion (hfits : base.pool.Fits)
    (h : base.companion analysis = .ok (some companion)) {first : Member}
    (hfirst : companion.methods.head? = some first) : AccessesNothing companion.pool first := by
  simp only [ClassFile.companion, except_bind_eq_ok, lift_class_eq_ok] at h
  obtain ⟨owner, -, fields, -, methods, -, h⟩ := h
  split at h
  · simp at h
  simp only [except_bind_eq_ok, except_pure_eq_ok, Option.some.injEq, Prod.exists, runOn_eq_ok,
    build, state_bind_eq_ok, lift_change_eq_ok, state_lift_eq_ok, lift_class_eq_ok,
    state_get_eq_ok, state_pure_eq_ok] at h
  obtain ⟨_, _, ⟨thisClass, p₁, hthis, superClass, p₂, hsuper, copiedFields, p₃, hcopiedFields,
    made, p₄, hmade, table, _, ⟨-, rfl⟩, copies, p₅, hcopies, _, _, ⟨rfl, rfl⟩, rfl, rfl⟩, rfl⟩ :=
      h
  obtain ⟨-, hfits₁, -⟩ := ConstantPool.putClass_grows _ hfits hthis
  obtain ⟨-, hfits₂, -⟩ := ConstantPool.putClass_grows _ hfits₁ hsuper
  obtain ⟨-, hfits₃, -⟩ := ConstantPool.mapM_grows
    (R := fun (field : Member × MemberKey) copy pool => CopiedField pool field.2 field.1 copy)
    (fun _ _ _ _ hle h => h.of_le hle) (fun field => copyField_grows field.1 field.2) fields
    hfits₂ hcopiedFields
  obtain ⟨-, hfits₄, hnothing⟩ := accessesNothing_grows hfits₃ hmade
  obtain ⟨hle, -, -⟩ := ConstantPool.mapM_grows
    (R := fun method copy pool => CheckedCopy owner pool method copy)
    (fun _ _ _ _ hle h => h.of_le hle) copyMethod_grows methods hfits₄ hcopies
  obtain rfl := Option.some.inj hfirst
  exact hnothing.of_le hle

section Copies
variable (hcompanion : base.companion analysis = .ok (some companion)) (hfits : base.pool.Fits)
  (hreads : base.ReadsAccesses)
include hcompanion hfits hreads

/-- The instructions of a method of a companion stand in the body that it was copied from; the
constructor has none that access fields. -/
theorem exists_copied {copy : Member} (hcopy : copy ∈ companion.methods) :
    (∃ code, copy.codeIn companion.pool = .ok code) ∧
      ∀ instruction access index, copy.HasInstruction companion.pool instruction →
        instruction.action = .field access index → ∃ method ∈ base.methods,
          (∃ key, base.pool.member index = .ok key ∧ companion.pool.member index = .ok key) ∧
          method.HasInstruction base.pool instruction ∧
          ∀ name ∈ Member.initializerNames, method.nameIn base.pool ≠ .ok name := by
  obtain ⟨owner, hof⟩ := companionOf_of_companion hfits hcompanion
  obtain ⟨first, hmethods, -⟩ := hof.constructor
  rw [hmethods] at hcopy
  rcases List.mem_cons.mp hcopy with rfl | hcopy
  · obtain ⟨code, instructions, hcode, hdecode, hnothing⟩ :=
      accessesNothing_of_companion hfits hcompanion (by rw [hmethods, List.head?_cons])
    refine ⟨⟨_, hcode⟩, ?_⟩
    rintro instruction access index ⟨code', instructions', hcode', hdecode', hmem⟩ haction
    obtain rfl := Option.some.inj (Except.ok.inj (hcode.symm.trans hcode'))
    obtain rfl := Except.ok.inj (hdecode.symm.trans hdecode')
    exact absurd haction (hnothing instruction hmem access index)
  · obtain ⟨moving, hmoving, hcopies⟩ := hof.methods
    obtain ⟨method, hmethod, hcopied, -⟩ := forall₂_mem_right hcopies hcopy
    obtain ⟨hmem, key, hkey, -⟩ := (mem_movingMethods hmoving).mp hmethod
    obtain ⟨⟨code, hcode⟩, hmembers⟩ := hreads method hmem
    have hcopyCode := hcopied.codeIn (Member.codeIn_of_le hof.grows hcode)
    refine ⟨⟨code, hcopyCode⟩, ?_⟩
    rintro instruction access index ⟨body, instructions, hbody, hdecode, hinstruction⟩ haction
    obtain rfl := Except.ok.inj (hcopyCode.symm.trans hbody)
    have hplace : method.HasInstruction base.pool instruction :=
      ⟨body, instructions, hcode, hdecode, hinstruction⟩
    obtain ⟨accessed, haccessed⟩ := hmembers instruction access index hplace haction
    refine ⟨method, hmem, ⟨accessed, haccessed, ConstantPool.member_of_le hof.grows haccessed⟩,
      hplace, ?_⟩
    intro name hname hnamed
    obtain ⟨key', _, hkey', hplain, -⟩ := hcopied.key
    obtain rfl := Except.ok.inj ((Member.keyIn_of_le hof.grows hkey).symm.trans hkey')
    obtain ⟨-, htext, -⟩ := Member.keyIn_eq_ok.mp hkey
    obtain rfl := Except.ok.inj (htext.symm.trans (mapError_eq_ok.mp hnamed))
    exact hplain hname

theorem readsAccesses_of_companion : companion.ReadsAccesses := by
  intro copy hcopy
  obtain ⟨hcode, hcopied⟩ := exists_copied hcompanion hfits hreads hcopy
  refine ⟨hcode, fun instruction access index hmem haction => ?_⟩
  obtain ⟨_, -, ⟨key, -, hkey⟩, -⟩ := hcopied instruction access index hmem haction
  exact ⟨key, hkey⟩

theorem exists_writesAt_of_companion {copy : Member} (hcopy : copy ∈ companion.methods) {pc : Nat}
    {key : MemberKey} (hwrites : companion.WritesAt copy pc key) :
    ∃ method ∈ base.methods, base.WritesAt method pc key ∧
      ∀ name ∈ Member.initializerNames, method.nameIn base.pool ≠ .ok name := by
  obtain ⟨-, hcopied⟩ := exists_copied hcompanion hfits hreads hcopy
  obtain ⟨instruction, index, hmem, hpc, haction, hkey⟩ := hwrites
  obtain ⟨method, hmethod, ⟨_, hread, hread'⟩, hplace, hplain⟩ :=
    hcopied instruction _ index hmem haction
  obtain rfl := Except.ok.inj (hkey.symm.trans hread')
  exact ⟨method, hmethod, ⟨instruction, index, hplace, hpc, haction, hread⟩, hplain⟩

end Copies

end Companion

/-- A field that the analysis maps keeps its name, so it is mapped to the new key of one field
only. -/
theorem Analysis.KeepsFieldNames.getD_eq_movedField {analysis : Analysis}
    (h : analysis.KeepsFieldNames) {key field : MemberKey}
    (hmoved : field.movedField = analysis.fields[key]?.getD key) :
    key = field.movedField ∨ key = field := by
  cases hvalue : analysis.fields[key]? with
  | none =>
    rw [hvalue] at hmoved
    exact .inl hmoved.symm
  | some moved =>
    rw [hvalue, h key moved hvalue] at hmoved
    exact .inr (MemberKey.movedField_inj hmoved).symm

/-- If only the initializer of a class writes its final fields, then after the references of the
class and of its companion are turned, a final field of the companion is written by the initializer
of the class only, and by instructions that have written a field of that key before. -/
theorem finalWrites_of_retarget {supported : NameSet} {types : NameMap} {files : List ClassFile}
    {analysis : Analysis} {owners owners' : Option NameSet}
    {file companion turned turnedCompanion : ClassFile} (hfits : file.pool.Fits)
    (hreads : file.ReadsAccesses)
    (honly : ∀ method ∈ file.methods, ∀ pc key, file.WritesAt method pc key →
      file.DeclaresFinal key → method.nameIn file.pool = .ok "<clinit>")
    (hanalysis : Scan.leaveAll supported { Analysis.empty with types } files = analysis)
    (hcompanion : file.companion analysis = .ok (some companion))
    (hturned : file.retarget analysis owners = .ok turned)
    (hturnedCompanion : companion.retarget analysis owners' = .ok turnedCompanion)
    {key : MemberKey} (hfinal : turnedCompanion.DeclaresFinal key) (pc : Nat) :
    (∀ method method', (method, method') ∈ file.methods.zip turned.methods →
      turned.WritesAt method' pc key →
        method'.nameIn turned.pool = .ok "<clinit>" ∨ file.WritesAt method pc key) ∧
    ∀ copy copy', (copy, copy') ∈ companion.methods.zip turnedCompanion.methods →
      turnedCompanion.WritesAt copy' pc key → companion.WritesAt copy pc key := by
  have hkeeps : analysis.KeepsFieldNames := by
    rw [← hanalysis]
    apply Scan.keepsFieldNames_leaveAll
    intro key value hvalue
    simp [Analysis.empty] at hvalue
  obtain ⟨owner, hof⟩ := Companion.companionOf_of_companion hfits hcompanion
  have hclass := Retarget.turnedClass_of_retarget hfits hturned
  have hcopies := Retarget.turnedClass_of_retarget hof.fits hturnedCompanion
  obtain ⟨field, hfield, rfl⟩ := Companion.exists_final_of_companion hof hcopies hkeeps hfinal
  constructor
  · intro method method' hpair hwrites
    obtain ⟨written, hwritten, hmoved⟩ := hclass.exists_writesAt hreads hpair hwrites
    obtain rfl | rfl := hkeeps.getD_eq_movedField hmoved
    · exact .inr hwritten
    · have hname := honly method (List.of_mem_zip hpair).1 pc _ hwritten hfield
      have hmethod := (List.forall₂_iff_zip.mp hclass.methods).2 hpair
      refine .inl (mapError_eq_ok.mpr ?_)
      rw [hmethod.name]
      exact ConstantPool.text_of_le hclass.grows (mapError_eq_ok.mp hname)
  · intro copy copy' hpair hwrites
    have hreadsCopies := Companion.readsAccesses_of_companion hcompanion hfits hreads
    obtain ⟨written, hwritten, hmoved⟩ := hcopies.exists_writesAt hreadsCopies hpair hwrites
    obtain rfl | rfl := hkeeps.getD_eq_movedField hmoved
    · exact hwritten
    · -- an initializer would have to be copied
      obtain ⟨method, hmethod, hwritesFinal, hplain⟩ := Companion.exists_writesAt_of_companion
        hcompanion hfits hreads (List.of_mem_zip hpair).1 hwritten
      exact absurd (honly method hmethod pc _ hwritesFinal hfield) (hplain _ (by decide))

section Computed
variable {file : ClassFile} {method : Member}

/-- The writes of static fields in the body of a method, each with its place. -/
def ClassFile.writesOf (file : ClassFile) (method : Member) : List (Nat × MemberKey) :=
  match method.codeIn file.pool with
  | .ok (some code) =>
    match Instruction.decode code.bytes with
    | .ok instructions => instructions.filterMap fun instruction =>
      match instruction.action with
      | .field .putStatic index => (file.pool.member index).toOption.map (instruction.pc, ·)
      | _ => none
    | .error _ => []
  | _ => []

theorem ClassFile.mem_writesOf {pc : Nat} {key : MemberKey} :
    (pc, key) ∈ file.writesOf method ↔ file.WritesAt method pc key := by
  unfold ClassFile.writesOf
  constructor
  · intro hmem
    split at hmem
    · rename_i code hcode
      split at hmem
      · rename_i instructions hdecode
        obtain ⟨instruction, hinstruction, hwrite⟩ := List.mem_filterMap.mp hmem
        split at hwrite
        · rename_i index haction
          obtain ⟨_, hkey, hpair⟩ := Option.map_eq_some_iff.mp hwrite
          obtain ⟨hpc, rfl⟩ := Prod.mk.inj hpair
          exact ⟨instruction, index, ⟨code, instructions, hcode, hdecode, hinstruction⟩, hpc,
            haction, toOption_eq_some.mp hkey⟩
        · cases hwrite
      · cases hmem
    · cases hmem
  · rintro ⟨instruction, index, ⟨code, instructions, hcode, hdecode, hmem⟩, rfl, haction, hkey⟩
    simp only [hcode, hdecode, List.mem_filterMap]
    exact ⟨instruction, hmem, by simp [haction, hkey, Except.toOption]⟩

theorem ClassFile.initializes_of_writesOf
    (h : ∀ method ∈ file.methods, ∀ write ∈ file.writesOf method,
      file.DeclaresFinal write.2 → method.nameIn file.pool = .ok "<clinit>") :
    ∀ method ∈ file.methods, ∀ pc key, file.WritesAt method pc key → file.DeclaresFinal key →
      method.nameIn file.pool = .ok "<clinit>" :=
  fun method hmem pc key hwrite => h method hmem (pc, key) (mem_writesOf.mpr hwrite)

instance (pc : Nat) (key : MemberKey) : Decidable (file.WritesAt method pc key) :=
  decidable_of_iff _ ClassFile.mem_writesOf

instance (key : MemberKey) : Decidable (file.DeclaresFinal key) :=
  inferInstanceAs (Decidable (_ ∧ _))

theorem ClassFile.readsAccesses_of_uses {table : List Bootstrap}
    (h : ∀ method ∈ file.methods, (method.uses file.pool table).toOption.isSome = true) :
    file.ReadsAccesses := by
  intro method hmem
  obtain ⟨uses, huses⟩ := Option.isSome_iff_exists.mp (h method hmem)
  obtain ⟨code, hcode, huses⟩ := Member.uses_eq_ok.mp (toOption_eq_some.mp huses)
  refine ⟨⟨code, hcode⟩, ?_⟩
  rintro instruction access index ⟨body, instructions, hbody, hdecode, hinstruction⟩ haction
  obtain rfl := Except.ok.inj (hcode.symm.trans hbody)
  obtain ⟨_, options, hdecode', hoptions, -⟩ := huses
  obtain rfl := Except.ok.inj (hdecode.symm.trans hdecode')
  obtain ⟨use, -, huse⟩ := forall₂_mem_left hoptions hinstruction
  rw [Instruction.use?_eq_ok, haction] at huse
  obtain ⟨key, hkey, -⟩ := huse
  exact ⟨key, hkey⟩

end Computed

/-- A class with a private static final field that its initializer sets. A marked static method
reads it and sets the field that it moves to. -/
def ClassFile.settler : ClassFile :=
  let text (s : String) : Slot := .entry (.utf8 (.valid s))
  let code (bytes : Bytes) : Attribute :=
    ⟨8, bigEndian 2 1 ++ bigEndian 2 1 ++ bigEndian 4 bytes.length ++ bytes ++ [0, 0, 0, 0]⟩
  { minorVersion := 0
    majorVersion := 52
    pool := ⟨#[.gap, text "p/C", .entry (.class 1), text "X", text "I", text "m", text "()V",
      text "<clinit>", text AttributeName.code.text, text AttributeName.visibleAnnotations.text,
      text "Lp/Api;", .entry (.nameAndType 3 4), .entry (.memberRef .field 2 11),
      text "java/lang/Object", .entry (.class 13), text "p/DesugarC", .entry (.class 15),
      .entry (.memberRef .field 16 11)]⟩
    flags := ⟨0x0021⟩
    thisClass := 2
    superClass := 14
    interfaces := []
    fields := [⟨⟨0x001A⟩, 3, 4, []⟩]
    methods := [
      ⟨⟨0x0008⟩, 7, 6, [code [0x03, 0xB3, 0, 12, 0xB1]]⟩,
      ⟨⟨0x0009⟩, 5, 6, [code [0xB2, 0, 12, 0xB3, 0, 17, 0xB1], ⟨9, [0, 1, 0, 10, 0, 0]⟩]⟩]
    attributes := [] }

namespace ClassFile.settler

theorem readsAccesses : settler.ReadsAccesses :=
  @readsAccesses_of_uses _ [] (by decide +kernel)

theorem only_initializer : ∀ method ∈ settler.methods, ∀ pc key,
    settler.WritesAt method pc key → settler.DeclaresFinal key →
      method.nameIn settler.pool = .ok "<clinit>" :=
  initializes_of_writesOf (by decide +kernel)

end ClassFile.settler

/-- A class and its companion once the references of both are turned, with what the scan of the
class finds and with the companion before that. -/
def turnedClasses? (supported : NameSet) (file : ClassFile) :
    Option (Analysis × ClassFile × ClassFile × ClassFile) := do
  let (analysis, companion) ← scannedCompanion? supported file
  let turned ← (file.retarget analysis none).toOption
  let turnedCompanion ← (companion.retarget analysis none).toOption
  return (analysis, companion, turned, turnedCompanion)

theorem turnedClasses?_eq_some {supported : NameSet} {analysis : Analysis}
    {file companion turned turnedCompanion : ClassFile} :
    turnedClasses? supported file = some (analysis, companion, turned, turnedCompanion) ↔
      Scan.scan supported file .empty = .ok () analysis ∧
        file.companion analysis = .ok (some companion) ∧
        file.retarget analysis none = .ok turned ∧
        companion.retarget analysis none = .ok turnedCompanion := by
  simp only [turnedClasses?, Option.bind_eq_bind, Option.bind_eq_some_iff, toOption_eq_some,
    Option.pure_def, Option.some.injEq, Prod.mk.injEq, Prod.exists, scannedCompanion?_eq_some]
  constructor
  · rintro ⟨_, _, ⟨hscan, hcompanion⟩, _, hturned, _, hturnedCompanion, rfl, rfl, rfl, rfl⟩
    exact ⟨hscan, hcompanion, hturned, hturnedCompanion⟩
  · rintro ⟨hscan, hcompanion, hturned, hturnedCompanion⟩
    exact ⟨_, _, ⟨hscan, hcompanion⟩, _, hturned, _, hturnedCompanion, rfl, rfl, rfl, rfl⟩

namespace ClassFile.settler

/-- The new key of the final field. -/
def field : MemberKey := ⟨"p/DesugarC", "X", "I"⟩

theorem exists_turned : ∃ analysis companion turned turnedCompanion,
    Scan.scan markNames settler .empty = .ok () analysis ∧
    settler.companion analysis = .ok (some companion) ∧
    settler.retarget analysis none = .ok turned ∧
    companion.retarget analysis none = .ok turnedCompanion ∧
    turnedCompanion.DeclaresFinal field ∧
    (∃ method ∈ turned.methods, method.nameIn turned.pool = .ok "<clinit>" ∧
      turned.WritesAt method 1 field) ∧
    ∃ copy ∈ turnedCompanion.methods, turnedCompanion.WritesAt copy 3 field := by
  have hrun : ((turnedClasses? markNames settler).any fun (_, _, turned, turnedCompanion) =>
      turnedCompanion.DeclaresFinal field ∧
        (∃ method ∈ turned.methods, method.nameIn turned.pool = .ok "<clinit>" ∧
          turned.WritesAt method 1 field) ∧
        ∃ copy ∈ turnedCompanion.methods, turnedCompanion.WritesAt copy 3 field) = true := by
    decide +kernel
  obtain ⟨⟨analysis, companion, turned, turnedCompanion⟩, hmade, hfound⟩ :=
    (Option.any_eq_true _ _).mp hrun
  obtain ⟨hscan, hcompanion, hturned, hturnedCompanion⟩ := turnedClasses?_eq_some.mp hmade
  exact ⟨analysis, companion, turned, turnedCompanion, hscan, hcompanion, hturned,
    hturnedCompanion, of_decide_eq_true hfound⟩

end ClassFile.settler

/-- The initializer still writes the field, which the companion declares final, and so does the copy
of the method that names the field of the companion. -/
theorem initializer_writes_companion :
    let file := ClassFile.settler
    file.name = .ok "p/C" ∧ file.pool.Fits ∧
      (∀ method ∈ file.methods, ∀ pc key, file.WritesAt method pc key →
        file.DeclaresFinal key → method.nameIn file.pool = .ok "<clinit>") ∧
      ∃ analysis companion turned turnedCompanion,
        Scan.scan markNames file .empty = .ok () analysis ∧
        file.companion analysis = .ok (some companion) ∧
        file.retarget analysis none = .ok turned ∧
        companion.retarget analysis none = .ok turnedCompanion ∧
        ∃ key, turnedCompanion.DeclaresFinal key ∧
          (∃ method ∈ turned.methods, ∃ pc, turned.WritesAt method pc key) ∧
          ∃ copy ∈ turnedCompanion.methods, ∃ pc, turnedCompanion.WritesAt copy pc key := by
  obtain ⟨analysis, companion, turned, turnedCompanion, hscan, hcompanion, hturned,
    hturnedCompanion, hfinal, ⟨method, hmethod, -, hwrites⟩, copy, hcopy, hwrites'⟩ :=
      ClassFile.settler.exists_turned
  exact ⟨rfl, by decide, ClassFile.settler.only_initializer, analysis, companion, turned,
    turnedCompanion, hscan, hcompanion, hturned, hturnedCompanion, _, hfinal,
    ⟨method, hmethod, 1, hwrites⟩, copy, hcopy, 3, hwrites'⟩

/-- The class `settler` without the constants of its companion. A third method writes a field of
which the constant, the one behind the last, is still missing. -/
def ClassFile.stray : ClassFile :=
  let code (bytes : Bytes) : Attribute :=
    ⟨8, bigEndian 2 1 ++ bigEndian 2 1 ++ bigEndian 4 bytes.length ++ bytes ++ [0, 0, 0, 0]⟩
  { settler with
    pool := ⟨settler.pool.slots.take 15⟩
    methods := [
      ⟨⟨0x0008⟩, 7, 6, [code [0x03, 0xB3, 0, 12, 0xB1]]⟩,
      ⟨⟨0x0009⟩, 5, 6, [code [0xB2, 0, 12, 0x57, 0xB1], ⟨9, [0, 1, 0, 10, 0, 0]⟩]⟩,
      ⟨⟨0x0008⟩, 3, 6, [code [0x03, 0xB3, 0, 17, 0xB1]]⟩] }

namespace ClassFile.stray

theorem not_readsAccesses : ¬ stray.ReadsAccesses := by
  intro hreads
  obtain ⟨-, hmembers⟩ := hreads stray.methods[2] (by decide)
  have hdecode : Instruction.decode [0x03, 0xB3, 0, 17, 0xB1] =
      .ok [⟨0, 0x03, []⟩, ⟨1, 0xB3, [0, 17]⟩, ⟨4, 0xB1, []⟩] :=
    toOption_eq_some.mp (by decide +kernel)
  have hplace : stray.methods[2].HasInstruction stray.pool ⟨1, 0xB3, [0, 17]⟩ :=
    ⟨⟨1, 1, [0x03, 0xB3, 0, 17, 0xB1], [], []⟩, _, rfl, hdecode, by decide⟩
  obtain ⟨key, hkey⟩ := hmembers _ .putStatic 17 hplace rfl
  cases hkey

theorem only_initializer : ∀ method ∈ stray.methods, ∀ pc key,
    stray.WritesAt method pc key → stray.DeclaresFinal key →
      method.nameIn stray.pool = .ok "<clinit>" :=
  initializes_of_writesOf (by decide +kernel)

end ClassFile.stray

/-- A field that cannot be read may become the final field of the companion, as its constant is
made while the references of the class are turned. -/
theorem stray_writes_companion :
    let file := ClassFile.stray
    file.pool.Fits ∧ ¬ file.ReadsAccesses ∧
      (∀ method ∈ file.methods, ∀ pc key, file.WritesAt method pc key →
        file.DeclaresFinal key → method.nameIn file.pool = .ok "<clinit>") ∧
      ∃ analysis companion turned turnedCompanion,
        Scan.scan markNames file .empty = .ok () analysis ∧
        file.companion analysis = .ok (some companion) ∧
        file.retarget analysis none = .ok turned ∧
        companion.retarget analysis none = .ok turnedCompanion ∧
        ∃ key, turnedCompanion.DeclaresFinal key ∧
          ∃ pair ∈ file.methods.zip turned.methods, ∃ pc, turned.WritesAt pair.2 pc key ∧
            pair.2.nameIn turned.pool ≠ .ok "<clinit>" ∧ ¬ file.WritesAt pair.1 pc key := by
  have hrun : ((turnedClasses? markNames .stray).any fun (_, _, turned, turnedCompanion) =>
      turnedCompanion.DeclaresFinal ClassFile.settler.field ∧
        ∃ pair ∈ ClassFile.stray.methods.zip turned.methods,
          turned.WritesAt pair.2 1 ClassFile.settler.field ∧
            pair.2.nameIn turned.pool ≠ .ok "<clinit>" ∧
            ¬ ClassFile.stray.WritesAt pair.1 1 ClassFile.settler.field) = true := by
    decide +kernel
  obtain ⟨⟨analysis, companion, turned, turnedCompanion⟩, hmade, hfound⟩ :=
    (Option.any_eq_true _ _).mp hrun
  obtain ⟨hscan, hcompanion, hturned, hturnedCompanion⟩ := turnedClasses?_eq_some.mp hmade
  obtain ⟨hfinal, pair, hpair, hwrites⟩ := of_decide_eq_true hfound
  exact ⟨by decide, ClassFile.stray.not_readsAccesses, ClassFile.stray.only_initializer, analysis,
    companion, turned, turnedCompanion, hscan, hcompanion, hturned, hturnedCompanion, _, hfinal,
    pair, hpair, 1, hwrites⟩

/-- Nothing but the initializer and the method that names the field of the companion writes it. -/
theorem finalWrites_of_settler : ∃ analysis companion turned turnedCompanion,
    Scan.scan markNames .settler .empty = .ok () analysis ∧
    ClassFile.settler.companion analysis = .ok (some companion) ∧
    ClassFile.settler.retarget analysis none = .ok turned ∧
    companion.retarget analysis none = .ok turnedCompanion ∧
    turnedCompanion.DeclaresFinal ClassFile.settler.field ∧
    (∃ method ∈ turned.methods, turned.WritesAt method 1 ClassFile.settler.field) ∧
    ∀ pc method method', (method, method') ∈ ClassFile.settler.methods.zip turned.methods →
      turned.WritesAt method' pc ClassFile.settler.field →
        method'.nameIn turned.pool = .ok "<clinit>" ∨
          ClassFile.settler.WritesAt method pc ClassFile.settler.field := by
  obtain ⟨analysis, companion, turned, turnedCompanion, hscan, hcompanion, hturned,
    hturnedCompanion, hfinal, ⟨method, hmethod, -, hwrites⟩, -⟩ :=
      ClassFile.settler.exists_turned
  have hanalysis :
      Scan.leaveAll markNames { Analysis.empty with types := ∅ } [.settler] = analysis :=
    Scan.leave_of_ok hscan
  exact ⟨analysis, companion, turned, turnedCompanion, hscan, hcompanion, hturned,
    hturnedCompanion, hfinal, ⟨method, hmethod, hwrites⟩, fun pc =>
      (finalWrites_of_retarget (by decide) ClassFile.settler.readsAccesses
        ClassFile.settler.only_initializer hanalysis hcompanion hturned hturnedCompanion hfinal
        pc).1⟩

end StaticCompanion
