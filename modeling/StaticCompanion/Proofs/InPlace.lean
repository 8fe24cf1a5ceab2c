import StaticCompanion.Proofs.TurnedClass
import StaticCompanion.Proofs.WritingBack

namespace StaticCompanion

namespace Retarget
variable {analysis : Analysis} {owners : Option NameSet} {pool : ConstantPool}

/-- What stands in the place of an instruction, by the member that it refers to. A field access
keeps its opcode, a call becomes a static one, and a call through an interface is filled up. -/
def InPlace (analysis : Analysis) (owners : Option NameSet) (pool : ConstantPool)
    (instruction : Instruction) (row : List Instruction) : Prop :=
  match instruction.action with
  | .field _ index =>
    ∃ key, pool.member index = .ok key ∧
      match analysis.fields[key]? with
      | none => row = [instruction]
      | some moved => ∃ index', pool.Refers .field index' moved ∧
        row = [⟨instruction.pc, instruction.opcode, bigEndian 2 index'.toNat⟩]
  | .call kind index =>
    ∃ key, pool.member index = .ok key ∧
      match if eligible owners key then analysis.methods[key]? else none with
      | none => row = [instruction]
      | some moved => ∃ index', pool.Refers .method index' moved ∧
        row = ⟨instruction.pc, CallKind.static.opcode, bigEndian 2 index'.toNat⟩ ::
          if kind = .interface then
            [⟨instruction.pc + 3, Instruction.nop, []⟩, ⟨instruction.pc + 4, Instruction.nop, []⟩]
          else []
  | _ => row = [instruction]

theorem withIndex_of_field {instruction : Instruction} {access : FieldAccess} {index : UInt16}
    (haction : instruction.action = .field access index) (hcomplete : instruction.Complete)
    (index' : UInt16) : withIndex instruction index' =
      ⟨instruction.pc, instruction.opcode, bigEndian 2 index'.toNat⟩ := by
  have hlen := Instruction.length_operands_of_field haction hcomplete
  rw [withIndex, List.drop_eq_nil_of_le (Nat.le_of_eq hlen), List.append_nil]

theorem staticRow_of_call {instruction : Instruction} {kind : CallKind} {index : UInt16}
    (haction : instruction.action = .call kind index) (hcomplete : instruction.Complete)
    (index' : UInt16) : staticRow instruction index' =
      ⟨instruction.pc, CallKind.static.opcode, bigEndian 2 index'.toNat⟩ ::
        if kind = .interface then
          [⟨instruction.pc + 3, Instruction.nop, []⟩, ⟨instruction.pc + 4, Instruction.nop, []⟩]
        else [] := by
  rw [staticRow, Instruction.length_operands_of_call haction hcomplete]
  split <;> rfl

theorem TurnedInstruction.inPlace {instruction : Instruction} {row : List Instruction}
    (h : TurnedInstruction analysis owners pool instruction row)
    (hcomplete : instruction.Complete) : InPlace analysis owners pool instruction row := by
  unfold InPlace
  cases h with
  | other hfield hcall =>
    split
    · rename_i access index haction
      exact absurd haction (hfield access index)
    · rename_i kind index haction
      exact absurd haction (hcall kind index)
    · rfl
  | @keptField access index key haction hkey hstays =>
    rw [haction]
    refine ⟨key, hkey, ?_⟩
    rw [hstays]
  | @field access index index' key moved haction hkey hmoved hnew =>
    rw [haction]
    refine ⟨key, hkey, ?_⟩
    rw [hmoved]
    exact ⟨index', hnew, by rw [withIndex_of_field haction hcomplete]⟩
  | @keptCall kind index key haction hkey hstays =>
    rw [haction]
    refine ⟨key, hkey, ?_⟩
    have hnone : (if eligible owners key then analysis.methods[key]? else none) = none := by
      split
      · rename_i heligible
        exact hstays heligible
      · rfl
    rw [hnone]
  | @call kind index index' key moved haction hkey heligible hmoved hnew =>
    rw [haction]
    refine ⟨key, hkey, ?_⟩
    rw [if_pos heligible, hmoved]
    exact ⟨index', hnew, staticRow_of_call haction hcomplete index'⟩

/-- A payload of code after the code in it has been turned: only instructions are exchanged, each
for some that take up its bytes. -/
def CodeInPlace (analysis : Analysis) (owners : Option NameSet) (pool : ConstantPool)
    (info info' : Bytes) : Prop :=
  ∃ code bytes instructions rows,
    Code.format.decode info = .ok code ∧ Code.format.decode info' = .ok { code with bytes } ∧
    bytes.length = code.bytes.length ∧
    (∃ front back, info = front ++ (code.bytes ++ back) ∧ info' = front ++ (bytes ++ back)) ∧
    Instruction.decode code.bytes = .ok instructions ∧
    Instruction.decode bytes = .ok rows.flatten ∧
    List.Forall₂ (InPlace analysis owners pool) instructions rows

theorem length_flatten {instructions : List Instruction} {rows : List (List Instruction)}
    (h : List.Forall₂ (fun instruction row =>
      (row.flatMap Instruction.bytes).length = instruction.bytes.length) instructions rows) :
    (rows.flatten.flatMap Instruction.bytes).length =
      (instructions.flatMap Instruction.bytes).length := by
  induction h with
  | nil => rfl
  | cons hrow _ ih =>
    rw [List.flatten_cons, List.flatMap_append, List.flatMap_cons, List.length_append,
      List.length_append, hrow, ih]

theorem TurnedBytes.inPlace {code code' : Bytes} (h : TurnedBytes analysis owners pool code code') :
    code'.length = code.length ∧ ∃ instructions rows, Instruction.decode code = .ok instructions ∧
      Instruction.decode code' = .ok rows.flatten ∧
      List.Forall₂ (InPlace analysis owners pool) instructions rows := by
  obtain ⟨instructions, rows, hdecode, hdecode', hrows⟩ := h
  obtain ⟨htiles, rfl⟩ := Instruction.decode_eq_ok.mp hdecode
  obtain ⟨-, rfl⟩ := Instruction.decode_eq_ok.mp hdecode'
  have hcomplete : List.Forall₂ (fun instruction row => instruction.Complete ∧
      TurnedInstruction analysis owners pool instruction row) instructions rows :=
    (List.forall₂_and_left _ _).mpr
      ⟨fun instruction hmem => Instruction.complete_of_mem htiles hmem, hrows⟩
  refine ⟨length_flatten ?_, instructions, rows, hdecode, hdecode', ?_⟩
  · exact hcomplete.imp fun _ _ hrow => (hrow.2.tiles hrow.1).2
  · exact hcomplete.imp fun _ _ hrow => hrow.2.inPlace hrow.1

theorem of_writeCode {code : Code} {info : Bytes} (h : Code.format.write code = .ok info) :
    ∃ back, ((Format.list 2 Handler.format).seq Attribute.listFormat).write
        (code.handlers, code.attributes) = .ok back ∧
      info = bigEndian 2 code.maxStack.toNat ++ (bigEndian 2 code.maxLocals.toNat ++
        (bigEndian 4 code.bytes.length ++ code.bytes ++ back)) := by
  obtain ⟨_, _, hstack, h₁, rfl⟩ := Format.seq_write_eq_ok.mp h
  obtain ⟨_, _, hlocals, h₂, rfl⟩ := Format.seq_write_eq_ok.mp h₁
  obtain ⟨_, back, hbytes, hback, rfl⟩ := Format.seq_write_eq_ok.mp h₂
  obtain rfl := Except.ok.inj hstack
  obtain rfl := Except.ok.inj hlocals
  obtain ⟨-, rfl⟩ := Format.blob_write_eq_ok.mp hbytes
  exact ⟨back, hback, rfl⟩

theorem around_bytes {code : Code} {bytes info info' : Bytes}
    (hlen : bytes.length = code.bytes.length) (h : Code.format.decode info = .ok code)
    (h' : Code.format.decode info' = .ok { code with bytes }) :
    ∃ front back, info = front ++ (code.bytes ++ back) ∧ info' = front ++ (bytes ++ back) := by
  obtain ⟨back, hback, rfl⟩ := of_writeCode (Code.writesBack.decode h)
  obtain ⟨back', hback', rfl⟩ := of_writeCode (Code.writesBack.decode h')
  obtain rfl := Except.ok.inj (hback.symm.trans hback')
  refine ⟨bigEndian 2 code.maxStack.toNat ++ (bigEndian 2 code.maxLocals.toNat ++
    bigEndian 4 code.bytes.length), back, ?_, ?_⟩
  · simp only [List.append_assoc]
  · simp only [List.append_assoc, hlen]

/-- A method after its code has been turned in place. -/
structure MethodInPlace (analysis : Analysis) (owners : Option NameSet) (pool : ConstantPool)
    (method method' : Member) : Prop where
  header : method' = { method with attributes := method'.attributes }
  attributes : List.Forall₂ (fun attr attr' => attr'.name = attr.name ∧
      (attr.nameIn pool = .ok AttributeName.code.text →
        CodeInPlace analysis owners pool attr.info attr'.info) ∧
      (attr.nameIn pool ≠ .ok AttributeName.code.text → attr' = attr))
    method.attributes method'.attributes

theorem TurnedAttribute.inPlace {attr attr' : Attribute}
    (h : TurnedAttribute analysis owners pool attr attr') : attr'.name = attr.name ∧
      (attr.nameIn pool = .ok AttributeName.code.text →
        CodeInPlace analysis owners pool attr.info attr'.info) ∧
      (attr.nameIn pool ≠ .ok AttributeName.code.text → attr' = attr) := by
  refine ⟨h.name_eq, fun hname => ?_, fun hname => ?_⟩
  · obtain ⟨code, bytes, hdecode, hdecode', hturned⟩ := h.code hname
    obtain ⟨hlen, instructions, rows, hbefore, hafter, hrows⟩ := hturned.inPlace
    exact ⟨code, bytes, instructions, rows, hdecode, hdecode', hlen,
      around_bytes hlen hdecode hdecode', hbefore, hafter, hrows⟩
  · obtain ⟨sort, hsort, -, hturned⟩ := h
    have hother : sort ≠ some .code := by
      rintro rfl
      exact hname (Attribute.sort_eq_some_iff.mp hsort)
    rwa [if_neg hother] at hturned

theorem TurnedMethod.inPlace {method method' : Member}
    (h : TurnedMethod analysis owners pool method method') :
    MethodInPlace analysis owners pool method method' := by
  refine ⟨?_, h.attributes.imp fun _ _ hattr => hattr.inPlace⟩
  obtain ⟨flags, name, descriptor, attributes⟩ := method'
  rw [← h.flags, ← h.name, ← h.descriptor]

/-- Following moved members is exact and moves nothing. All constants stay where they are, so what
an index referred to it still refers to, and of the rest of the class only code and the table of
bootstrap methods may change. Code keeps its length and its instructions their places; those that
refer to moved members refer to where these have moved to, and all others are the same. -/
theorem retarget_inPlace {file turned : ClassFile} (hfits : file.pool.Fits)
    (h : file.retarget analysis owners = .ok turned) :
    (∀ index entry, file.pool.entry index = .ok entry → turned.pool.entry index = .ok entry) ∧
      (∀ index key, file.pool.member index = .ok key → turned.pool.member index = .ok key) ∧
      turned = { file with
        pool := turned.pool, methods := turned.methods, attributes := turned.attributes } ∧
      List.Forall₂ (fun attr attr' => attr' = attr ∨ attr'.name = attr.name ∧
        attr.nameIn turned.pool = .ok AttributeName.bootstrapMethods.text)
        file.attributes turned.attributes ∧
      List.Forall₂ (MethodInPlace analysis owners turned.pool) file.methods turned.methods := by
  have hturned := turnedClass_of_retarget hfits h
  refine ⟨fun index entry hentry => ConstantPool.entry_of_le hturned.grows hentry,
    fun index key hkey => ConstantPool.member_of_le hturned.grows hkey, hturned.rest,
    hturned.attributes, ?_⟩
  exact hturned.methods.imp fun _ _ hmethod => hmethod.inPlace

/-- A class with a static method that calls a method through an interface and reads a field of the
interface. -/
def interfaceUser : ClassFile :=
  let text (s : String) : Slot := .entry (.utf8 (.valid s))
  let code : Bytes := [0xB9, 0, 10, 1, 0, 0xB2, 0, 14, 0xB1]
  { minorVersion := 0
    majorVersion := 52
    pool := ⟨#[.gap, text "p/B", .entry (.class 1), text "run", text "()V",
      text AttributeName.code.text, text "p/I", .entry (.class 6), text "m",
      .entry (.nameAndType 8 4), .entry (.memberRef .interfaceMethod 7 9), text "f", text "I",
      .entry (.nameAndType 11 12), .entry (.memberRef .field 7 13), text "java/lang/Object",
      .entry (.class 15)]⟩
    flags := ⟨0x0021⟩
    thisClass := 2
    superClass := 16
    interfaces := []
    fields := []
    methods := [⟨⟨0x0009⟩, 3, 4,
      [⟨5, bigEndian 2 1 ++ bigEndian 2 0 ++ bigEndian 4 9 ++ code ++ [0, 0, 0, 0]⟩]⟩]
    attributes := [] }

def movedInterface : Analysis where
  fields := (∅ : MemberMap).insert ⟨"p/I", "f", "I"⟩ ⟨"p/DesugarI", "f", "I"⟩
  methods := (∅ : MemberMap).insert ⟨"p/I", "m", "()V"⟩ ⟨"p/DesugarI", "m", "(Lp/I;)V"⟩
  types := ∅

/-- The call becomes a static one that is filled up, and the field is read where it read before. -/
theorem retarget_inPlace_of_interfaceUser :
    ∃ turned, interfaceUser.retarget movedInterface none = .ok turned ∧
      turned.methods.map (fun method => method.attributes.map fun attr =>
        (attr.info.drop 8).take 9) = [[[0xB8, 0, 21, 0, 0, 0xB2, 0, 22, 0xB1]]] ∧
      List.Forall₂ (MethodInPlace movedInterface none turned.pool) interfaceUser.methods
        turned.methods := by
  have hrun : (interfaceUser.retarget movedInterface none).toOption.map
      (fun turned => turned.methods.map fun method => method.attributes.map fun attr =>
        (attr.info.drop 8).take 9) = some [[[0xB8, 0, 21, 0, 0, 0xB2, 0, 22, 0xB1]]] := by
    decide +kernel
  obtain ⟨turned, hfound, hcode⟩ := Option.map_eq_some_iff.mp hrun
  have hturned := toOption_eq_some.mp hfound
  exact ⟨turned, hturned, hcode, (retarget_inPlace (by decide) hturned).2.2.2.2⟩

end Retarget

end StaticCompanion
