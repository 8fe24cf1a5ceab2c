import StaticCompanion.Proofs.Instructions
import StaticCompanion.Proofs.Uses
import StaticCompanion.Relocation.Retarget

/-!
# Code that was turned

What turning does to an instruction, to code and to a method, said by relations between what was
there before and what is there afterwards. An instruction becomes a row of instructions that takes
up the same bytes, so everything stands where it stood, and the members that are used become the
ones that they have moved to.
-/
namespace StaticCompanion

/-- The use after the member has moved, or the same use if it stays. -/
def Use.turn (analysis : Analysis) (owners : Option NameSet) : Use → Use
  | field key => .field (analysis.fields[key]?.getD key)
  | call key =>
    .call (if Retarget.eligible owners key then analysis.methods[key]?.getD key else key)
  | lambda factory key =>
    .lambda factory (if factory = metafactory then analysis.methods[key]?.getD key else key)

namespace Retarget
variable {analysis : Analysis} {owners : Option NameSet} {p q : ConstantPool}
  {instruction : Instruction}

def idle (pc : Nat) : (count : Nat) → List Instruction
  | 0 => []
  | count + 1 => ⟨pc, Instruction.nop, []⟩ :: idle (pc + 1) count

/-- The static call in the place of a call, as a row of instructions. -/
def staticRow (instruction : Instruction) (index : UInt16) : List Instruction :=
  ⟨instruction.pc, CallKind.static.opcode, bigEndian 2 index.toNat⟩ ::
    idle (instruction.pc + 3) (instruction.operands.length - 2)

/-- What becomes of an instruction when the members that have moved are followed. -/
inductive TurnedInstruction (analysis : Analysis) (owners : Option NameSet) (pool : ConstantPool)
    (instruction : Instruction) : List Instruction → Prop
  | other (hfield : ∀ access index, instruction.action ≠ .field access index)
      (hcall : ∀ kind index, instruction.action ≠ .call kind index) :
      TurnedInstruction analysis owners pool instruction [instruction]
  | keptField {access : FieldAccess} {index : UInt16} {key : MemberKey}
      (haction : instruction.action = .field access index) (hkey : pool.member index = .ok key)
      (hstays : analysis.fields[key]? = none) :
      TurnedInstruction analysis owners pool instruction [instruction]
  | field {access : FieldAccess} {index index' : UInt16} {key moved : MemberKey}
      (haction : instruction.action = .field access index) (hkey : pool.member index = .ok key)
      (hmoved : analysis.fields[key]? = some moved) (hnew : pool.Refers .field index' moved) :
      TurnedInstruction analysis owners pool instruction [withIndex instruction index']
  | keptCall {kind : CallKind} {index : UInt16} {key : MemberKey}
      (haction : instruction.action = .call kind index) (hkey : pool.member index = .ok key)
      (hstays : eligible owners key = true → analysis.methods[key]? = none) :
      TurnedInstruction analysis owners pool instruction [instruction]
  | call {kind : CallKind} {index index' : UInt16} {key moved : MemberKey}
      (haction : instruction.action = .call kind index) (hkey : pool.member index = .ok key)
      (heligible : eligible owners key = true) (hmoved : analysis.methods[key]? = some moved)
      (hnew : pool.Refers .method index' moved) :
      TurnedInstruction analysis owners pool instruction (staticRow instruction index')

theorem TurnedInstruction.of_le {row : List Instruction} (hle : p ≤ q)
    (h : TurnedInstruction analysis owners p instruction row) :
    TurnedInstruction analysis owners q instruction row := by
  cases h with
  | other hfield hcall => exact .other hfield hcall
  | keptField haction hkey hstays =>
    exact .keptField haction (ConstantPool.member_of_le hle hkey) hstays
  | field haction hkey hmoved hnew =>
    exact .field haction (ConstantPool.member_of_le hle hkey) hmoved (hnew.of_le hle)
  | keptCall haction hkey hstays =>
    exact .keptCall haction (ConstantPool.member_of_le hle hkey) hstays
  | call haction hkey heligible hmoved hnew =>
    exact .call haction (ConstantPool.member_of_le hle hkey) heligible hmoved (hnew.of_le hle)

section Rows

theorem tiles_idle (pc count : Nat) : Instruction.Tiles pc (idle pc count) := by
  induction count generalizing pc with
  | zero => trivial
  | succ count ih => exact ⟨rfl, Instruction.complete_nop, ih (pc + 1)⟩

theorem bytes_idle (pc count : Nat) :
    (idle pc count).flatMap Instruction.bytes = List.replicate count Instruction.nop := by
  induction count generalizing pc with
  | zero => rfl
  | succ count ih => simp [idle, ih, Instruction.bytes, List.replicate_succ]

theorem action_of_mem_idle {pc count : Nat} (hmem : instruction ∈ idle pc count) :
    instruction.action = .other := by
  induction count generalizing pc with
  | zero => cases hmem
  | succ count ih =>
    rcases List.mem_cons.mp hmem with rfl | hmem
    · exact Instruction.action_nop
    · exact ih hmem

theorem bytes_staticCall (instruction : Instruction) (index : UInt16) :
    (staticRow instruction index).flatMap Instruction.bytes =
      (staticCall instruction index).bytes := by
  simp [staticRow, staticCall, bytes_idle, Instruction.bytes, List.map_const']

theorem action_withIndex {access : FieldAccess} {index : UInt16}
    (haction : instruction.action = .field access index) (index' : UInt16) :
    (withIndex instruction index').action = .field access index' := by
  obtain ⟨hopcode, -⟩ := Instruction.action_eq_field_iff.mp haction
  obtain ⟨high, low, hoperands, hindex⟩ :=
    Instruction.index_bigEndian index' (instruction.operands.drop 2)
  exact Instruction.action_eq_field_iff.mpr ⟨hopcode, high, low, _, hoperands, hindex⟩

theorem action_static (pc : Nat) (index : UInt16) :
    (⟨pc, CallKind.static.opcode, bigEndian 2 index.toNat⟩ : Instruction).action =
      .call .static index := by
  obtain ⟨high, low, hoperands, hindex⟩ := Instruction.index_bigEndian index []
  rw [List.append_nil] at hoperands
  exact Instruction.action_eq_call_iff.mpr ⟨rfl, high, low, [], hoperands, hindex⟩

/-- The row of an instruction starts where the instruction starts and takes up as many bytes. -/
theorem TurnedInstruction.tiles {row : List Instruction}
    (h : TurnedInstruction analysis owners p instruction row) (hcomplete : instruction.Complete) :
    Instruction.Tiles instruction.pc row ∧
      (row.flatMap Instruction.bytes).length = instruction.bytes.length := by
  have hkept : Instruction.Tiles instruction.pc [instruction] ∧
      ([instruction].flatMap Instruction.bytes).length = instruction.bytes.length :=
    ⟨⟨rfl, hcomplete, trivial⟩, by simp⟩
  cases h with
  | other _ _ => exact hkept
  | keptField _ _ _ => exact hkept
  | keptCall _ _ _ => exact hkept
  | @field access index index' key moved haction hkey hmoved hnew =>
    obtain ⟨pc, opcode, operands⟩ := instruction
    obtain ⟨hopcode, high, low, rest, rfl, -⟩ := Instruction.action_eq_field_iff.mp haction
    dsimp only at hopcode
    subst hopcode
    have hlen := Instruction.complete_field_iff.mp hcomplete
    simp only [List.length_cons, Nat.reduceEqDiff, List.length_eq_zero_iff] at hlen
    subst hlen
    simp [withIndex, Instruction.Tiles, Instruction.complete_field_iff, Instruction.bytes,
      length_bigEndian]
  | @call kind index index' key moved haction hkey heligible hmoved hnew =>
    obtain ⟨pc, opcode, operands⟩ := instruction
    obtain ⟨hopcode, high, low, rest, rfl, -⟩ := Instruction.action_eq_call_iff.mp haction
    dsimp only at hopcode
    subst hopcode
    refine ⟨⟨rfl, ?_, ?_⟩, ?_⟩
    · exact Instruction.complete_call_iff.mpr (by simp [length_bigEndian])
    · simpa [Instruction.bytes, length_bigEndian] using tiles_idle (pc + 3) rest.length
    · rw [bytes_staticCall]
      simp [staticCall, Instruction.bytes, length_bigEndian, Nat.add_comm, Nat.add_left_comm]

/-- Whatever refers to something in the row of an instruction stands where the instruction does. -/
theorem TurnedInstruction.pc_of_mem {row : List Instruction}
    (h : TurnedInstruction analysis owners p instruction row) {instruction' : Instruction}
    (hmem : instruction' ∈ row) (hrefers : instruction'.action ≠ .other) :
    instruction'.pc = instruction.pc := by
  cases h with
  | call _ _ _ _ _ =>
    rcases List.mem_cons.mp hmem with rfl | hidle
    · rfl
    · exact absurd (action_of_mem_idle hidle) hrefers
  | _ =>
    obtain rfl := List.mem_singleton.mp hmem
    rfl

section Members
variable {row : List Instruction} (h : TurnedInstruction analysis owners p instruction row)
  {instruction' : Instruction} (hmem : instruction' ∈ row) {index' : UInt16} {key' : MemberKey}
include h hmem

/-- An access in the row of an instruction is the access that the instruction is, to where the
field has moved. -/
theorem TurnedInstruction.access_of_mem {access' : FieldAccess}
    (haction' : instruction'.action = .field access' index') (hkey' : p.member index' = .ok key') :
    ∃ index key, instruction.action = .field access' index ∧ p.member index = .ok key ∧
      key' = analysis.fields[key]?.getD key := by
  cases h with
  | other hfield _ =>
    obtain rfl := List.mem_singleton.mp hmem
    exact absurd haction' (hfield _ _)
  | @keptField _ _ key haction hkey hstays =>
    obtain rfl := List.mem_singleton.mp hmem
    obtain ⟨rfl, rfl⟩ := Action.field.inj (haction.symm.trans haction')
    obtain rfl := Except.ok.inj (hkey'.symm.trans hkey)
    exact ⟨_, _, haction, hkey, by rw [hstays]; rfl⟩
  | field haction hkey hmoved hnew =>
    obtain rfl := List.mem_singleton.mp hmem
    obtain ⟨rfl, rfl⟩ := Action.field.inj ((action_withIndex haction _).symm.trans haction')
    obtain rfl := Except.ok.inj (hkey'.symm.trans hnew.member)
    exact ⟨_, _, haction, hkey, by rw [hmoved]; rfl⟩
  | keptCall haction _ _ =>
    obtain rfl := List.mem_singleton.mp hmem
    cases haction.symm.trans haction'
  | call _ _ _ _ _ =>
    rcases List.mem_cons.mp hmem with rfl | hidle
    · cases (action_static _ _).symm.trans haction'
    · cases (action_of_mem_idle hidle).symm.trans haction'

theorem TurnedInstruction.field_of_mem {access' : FieldAccess}
    (haction' : instruction'.action = .field access' index') (hkey' : p.member index' = .ok key') :
    ∃ access index key, instruction.action = .field access index ∧ p.member index = .ok key ∧
      (key' = key ∨ analysis.fields[key]? = some key') := by
  obtain ⟨index, key, haction, hkey, hmoved⟩ := h.access_of_mem hmem haction' hkey'
  refine ⟨_, index, key, haction, hkey, ?_⟩
  cases hvalue : analysis.fields[key]? with
  | none => exact .inl (by rw [hmoved, hvalue]; rfl)
  | some moved => exact .inr (by rw [hmoved, hvalue]; rfl)

theorem TurnedInstruction.call_of_mem {kind' : CallKind}
    (haction' : instruction'.action = .call kind' index') (hkey' : p.member index' = .ok key') :
    ∃ kind index key, instruction.action = .call kind index ∧ p.member index = .ok key ∧
      (key' = key ∨ analysis.methods[key]? = some key') := by
  cases h with
  | other _ hcall =>
    obtain rfl := List.mem_singleton.mp hmem
    exact absurd haction' (hcall _ _)
  | keptField haction _ _ =>
    obtain rfl := List.mem_singleton.mp hmem
    cases haction.symm.trans haction'
  | field haction _ _ _ =>
    obtain rfl := List.mem_singleton.mp hmem
    cases (action_withIndex haction _).symm.trans haction'
  | keptCall haction hkey _ =>
    obtain rfl := List.mem_singleton.mp hmem
    obtain ⟨rfl, rfl⟩ := Action.call.inj (haction.symm.trans haction')
    exact ⟨_, _, _, haction, hkey, .inl (Except.ok.inj (hkey'.symm.trans hkey))⟩
  | call haction hkey _ hmoved hnew =>
    rcases List.mem_cons.mp hmem with rfl | hidle
    · obtain ⟨-, rfl⟩ := Action.call.inj ((action_static _ _).symm.trans haction')
      obtain rfl := Except.ok.inj (hkey'.symm.trans hnew.member)
      exact ⟨_, _, _, haction, hkey, .inr hmoved⟩
    · cases (action_of_mem_idle hidle).symm.trans haction'

end Members

end Rows

def TurnedBytes (analysis : Analysis) (owners : Option NameSet) (pool : ConstantPool)
    (code code' : Bytes) : Prop :=
  ∃ instructions rows, Instruction.decode code = .ok instructions ∧
    Instruction.decode code' = .ok rows.flatten ∧
    List.Forall₂ (TurnedInstruction analysis owners pool) instructions rows

theorem TurnedBytes.of_le (hle : p ≤ q) {code code' : Bytes}
    (h : TurnedBytes analysis owners p code code') : TurnedBytes analysis owners q code code' := by
  obtain ⟨instructions, rows, hdecode, hdecode', hrows⟩ := h
  exact ⟨instructions, rows, hdecode, hdecode', hrows.imp fun _ _ hrow => hrow.of_le hle⟩

/-- The bytes of the second instruction are those of the row that the first one becomes. -/
def TurnsInto (analysis : Analysis) (owners : Option NameSet) (pool : ConstantPool)
    (instruction turned : Instruction) : Prop :=
  ∃ row, TurnedInstruction analysis owners pool instruction row ∧
    turned.bytes = row.flatMap Instruction.bytes

theorem TurnsInto.of_le (hle : p ≤ q) {turned : Instruction}
    (h : TurnsInto analysis owners p instruction turned) :
    TurnsInto analysis owners q instruction turned := by
  obtain ⟨row, hrow, hbytes⟩ := h
  exact ⟨row, hrow.of_le hle, hbytes⟩

theorem turnsInto_single {turned : Instruction}
    (h : TurnedInstruction analysis owners p instruction [turned]) :
    TurnsInto analysis owners p instruction turned :=
  ⟨[turned], h, by simp⟩

theorem exists_rows {instructions turned : List Instruction}
    (h : List.Forall₂ (TurnsInto analysis owners p) instructions turned) :
    ∃ rows, List.Forall₂ (TurnedInstruction analysis owners p) instructions rows ∧
      turned.flatMap Instruction.bytes = rows.flatten.flatMap Instruction.bytes := by
  induction h with
  | nil => exact ⟨[], .nil, rfl⟩
  | cons hturns _ ih =>
    obtain ⟨row, hrow, hbytes⟩ := hturns
    obtain ⟨rows, hrows, hrest⟩ := ih
    refine ⟨row :: rows, .cons hrow hrows, ?_⟩
    rw [List.flatMap_cons, hbytes, hrest, List.flatten_cons, List.flatMap_append]

theorem turnInstruction_grows (instruction : Instruction) :
    ConstantPool.Grows (turnInstruction analysis owners instruction) fun turned pool =>
      TurnsInto analysis owners pool instruction turned := by
  intro p turned p' hfits hrun
  unfold turnInstruction at hrun
  cases haction : instruction.action with
  | field access index =>
    simp only [haction, state_bind_eq_ok, state_get_eq_ok, state_lift_eq_ok, lift_pool_eq_ok]
      at hrun
    obtain ⟨_, _, ⟨rfl, rfl⟩, key, _, ⟨hkey, rfl⟩, hrun⟩ := hrun
    cases hmoved : analysis.fields[key]? with
    | none =>
      simp only [hmoved, state_pure_eq_ok] at hrun
      obtain ⟨rfl, rfl⟩ := hrun
      exact ⟨ConstantPool.le_refl _, hfits, turnsInto_single (.keptField haction hkey hmoved)⟩
    | some moved =>
      simp only [hmoved, state_bind_eq_ok, lift_change_eq_ok, state_pure_eq_ok] at hrun
      obtain ⟨index', _, hput, rfl, rfl⟩ := hrun
      obtain ⟨hle, hfits', hnew⟩ := ConstantPool.putMember_grows .field moved hfits hput
      have hkey' := ConstantPool.member_of_le hle hkey
      exact ⟨hle, hfits', turnsInto_single (.field haction hkey' hmoved hnew)⟩
  | call kind index =>
    simp only [haction, state_bind_eq_ok, state_get_eq_ok, state_lift_eq_ok, lift_pool_eq_ok]
      at hrun
    obtain ⟨_, _, ⟨rfl, rfl⟩, key, _, ⟨hkey, rfl⟩, hrun⟩ := hrun
    cases hmoved : (if eligible owners key then analysis.methods[key]? else none) with
    | none =>
      simp only [hmoved, state_pure_eq_ok] at hrun
      obtain ⟨rfl, rfl⟩ := hrun
      have hstays (heligible : eligible owners key = true) : analysis.methods[key]? = none := by
        rwa [if_pos heligible] at hmoved
      exact ⟨ConstantPool.le_refl _, hfits, turnsInto_single (.keptCall haction hkey hstays)⟩
    | some moved =>
      simp only [hmoved, state_bind_eq_ok, lift_change_eq_ok, state_pure_eq_ok] at hrun
      obtain ⟨index', _, hput, rfl, rfl⟩ := hrun
      obtain ⟨hle, hfits', hnew⟩ := ConstantPool.putMember_grows .method moved hfits hput
      split at hmoved
      · rename_i heligible
        have hkey' := ConstantPool.member_of_le hle hkey
        exact ⟨hle, hfits', _, .call haction hkey' heligible hmoved hnew,
          (bytes_staticCall instruction index').symm⟩
      · cases hmoved
  | dynamicCall index =>
    simp only [haction, state_pure_eq_ok] at hrun
    obtain ⟨rfl, rfl⟩ := hrun
    exact ⟨ConstantPool.le_refl _, hfits,
      turnsInto_single (.other (by simp [haction]) (by simp [haction]))⟩
  | other =>
    simp only [haction, state_pure_eq_ok] at hrun
    obtain ⟨rfl, rfl⟩ := hrun
    exact ⟨ConstantPool.le_refl _, hfits,
      turnsInto_single (.other (by simp [haction]) (by simp [haction]))⟩

theorem turnCode_grows (code : Bytes) :
    ConstantPool.Grows (turnCode analysis owners code) fun code' pool =>
      TurnedBytes analysis owners pool code code' := by
  intro p code' p' hfits hrun
  simp only [turnCode, state_bind_eq_ok, state_lift_eq_ok, lift_malformation_eq_ok,
    state_pure_eq_ok] at hrun
  obtain ⟨instructions, _, ⟨hdecode, rfl⟩, turned, p₁, hturned, rfl, rfl⟩ := hrun
  obtain ⟨hle, hfits', hturns⟩ := ConstantPool.mapM_grows
    (R := fun instruction turned pool => TurnsInto analysis owners pool instruction turned)
    (fun _ _ _ _ hle h => h.of_le hle) turnInstruction_grows instructions hfits hturned
  obtain ⟨rows, hrows, hbytes⟩ := exists_rows hturns
  obtain ⟨htiles, -⟩ := Instruction.decode_eq_ok.mp hdecode
  have hcomplete : ∀ instruction ∈ instructions, instruction.Complete := by
    intro instruction hmem
    exact Instruction.complete_of_mem htiles hmem
  have hrowTiles := ((List.forall₂_and_left _ _).mpr ⟨hcomplete, hrows⟩).imp
    fun _ _ h => h.2.tiles h.1
  have htiles' := Instruction.tiles_flatten htiles hrowTiles
  exact ⟨hle, hfits', instructions, rows, hdecode,
    Instruction.decode_eq_ok.mpr ⟨htiles', hbytes⟩, hrows⟩

def TurnedAttribute (analysis : Analysis) (owners : Option NameSet) (pool : ConstantPool)
    (attr attr' : Attribute) : Prop :=
  ∃ sort, attr.sort pool = .ok sort ∧ attr'.name = attr.name ∧
    if sort = some .code then ∃ code bytes, Code.format.decode attr.info = .ok code ∧
      Code.format.decode attr'.info = .ok { code with bytes } ∧
      TurnedBytes analysis owners pool code.bytes bytes
    else attr' = attr

theorem turnAttribute_grows (attr : Attribute) :
    ConstantPool.Grows (turnAttribute analysis owners attr) fun attr' pool =>
      TurnedAttribute analysis owners pool attr attr' := by
  intro p attr' p' hfits hrun
  simp only [turnAttribute, state_bind_eq_ok, state_get_eq_ok, state_lift_eq_ok, lift_class_eq_ok]
    at hrun
  obtain ⟨_, _, ⟨rfl, rfl⟩, sort, _, ⟨hsort, rfl⟩, hrun⟩ := hrun
  split at hrun
  · rename_i hother
    obtain ⟨rfl, rfl⟩ := state_pure_eq_ok.mp hrun
    exact ⟨ConstantPool.le_refl _, hfits, sort, hsort, rfl, by rw [if_neg hother]⟩
  · rename_i hcode
    rw [not_not] at hcode
    simp only [state_bind_eq_ok, state_lift_eq_ok, lift_class_eq_ok] at hrun
    obtain ⟨code, _, ⟨hdecode, rfl⟩, bytes, p₁, hbytes, hrun⟩ := hrun
    obtain ⟨hle, hfits₁, hturned⟩ := turnCode_grows code.bytes hfits hbytes
    split at hrun
    · rename_i hsame
      obtain ⟨rfl, rfl⟩ := state_pure_eq_ok.mp hrun
      refine ⟨hle, hfits₁, sort, Attribute.sort_of_le hle hsort, rfl, ?_⟩
      rw [if_pos hcode]
      exact ⟨code, bytes, hdecode, by rw [hsame]; exact hdecode, hturned⟩
    · simp only [state_lift_eq_ok, lift_write_eq_ok] at hrun
      obtain ⟨hencode, rfl⟩ := hrun
      obtain ⟨hname, hdecode'⟩ := Attribute.encode_eq_ok Code.readsBack hencode
      refine ⟨hle, hfits₁, sort, Attribute.sort_of_le hle hsort, hname, ?_⟩
      rw [if_pos hcode]
      exact ⟨code, bytes, hdecode, hdecode', hturned⟩

theorem TurnedAttribute.of_le (hle : p ≤ q) {attr attr' : Attribute}
    (h : TurnedAttribute analysis owners p attr attr') :
    TurnedAttribute analysis owners q attr attr' := by
  obtain ⟨sort, hsort, hname, hturned⟩ := h
  refine ⟨sort, Attribute.sort_of_le hle hsort, hname, ?_⟩
  split at hturned
  · rename_i hcode
    obtain ⟨code, bytes, hdecode, hdecode', hbytes⟩ := hturned
    rw [if_pos hcode]
    exact ⟨code, bytes, hdecode, hdecode', hbytes.of_le hle⟩
  · rename_i hother
    rwa [if_neg hother]

theorem TurnedAttribute.name_eq {attr attr' : Attribute}
    (h : TurnedAttribute analysis owners p attr attr') : attr'.name = attr.name := by
  obtain ⟨sort, -, hname, -⟩ := h
  exact hname

theorem TurnedAttribute.code {attr attr' : Attribute}
    (h : TurnedAttribute analysis owners p attr attr')
    (hname : attr.nameIn p = .ok AttributeName.code.text) :
    ∃ code bytes, Code.format.decode attr.info = .ok code ∧
      Code.format.decode attr'.info = .ok { code with bytes } ∧
      TurnedBytes analysis owners p code.bytes bytes := by
  obtain ⟨sort, hsort, -, hturned⟩ := h
  have hcode := Attribute.sort_eq_some_iff.mpr hname
  obtain rfl := Except.ok.inj (hsort.symm.trans hcode)
  rwa [if_pos rfl] at hturned

structure TurnedMethod (analysis : Analysis) (owners : Option NameSet) (pool : ConstantPool)
    (method method' : Member) : Prop where
  flags : method'.flags = method.flags
  name : method'.name = method.name
  descriptor : method'.descriptor = method.descriptor
  attributes :
    List.Forall₂ (TurnedAttribute analysis owners pool) method.attributes method'.attributes

theorem TurnedMethod.of_le (hle : p ≤ q) {method method' : Member}
    (h : TurnedMethod analysis owners p method method') :
    TurnedMethod analysis owners q method method' :=
  ⟨h.flags, h.name, h.descriptor, h.attributes.imp fun _ _ hattr => hattr.of_le hle⟩

theorem turnMethod_grows (method : Member) :
    ConstantPool.Grows (turnMethod analysis owners method) fun method' pool =>
      TurnedMethod analysis owners pool method method' := by
  intro p method' p' hfits hrun
  simp only [turnMethod, state_bind_eq_ok, state_pure_eq_ok] at hrun
  obtain ⟨attributes, p₁, hattributes, rfl, rfl⟩ := hrun
  obtain ⟨hle, hfits', hturned⟩ := ConstantPool.mapM_grows
    (fun _ _ _ _ hle hattr => hattr.of_le hle) turnAttribute_grows method.attributes hfits
    hattributes
  exact ⟨hle, hfits', rfl, rfl, rfl, hturned⟩

namespace TurnedMethod
variable {method method' : Member} (h : TurnedMethod analysis owners p method method')
include h

theorem codeIn {code : Option Code} (hcode : method.codeIn p = .ok code) :
    ∃ code', method'.codeIn p = .ok code' ∧ Option.Rel (fun code code' =>
      TurnedBytes analysis owners p code.bytes code'.bytes) code code' := by
  obtain ⟨found, hfound, hcode⟩ := Member.codeIn_eq_ok.mp hcode
  obtain ⟨found', hfound', hrel⟩ :=
    Attribute.find?_forall₂ (fun _ _ hattr => hattr.name_eq) h.attributes hfound
  cases hrel with
  | none =>
    subst hcode
    exact ⟨none, Member.codeIn_eq_ok.mpr ⟨none, hfound', rfl⟩, .none⟩
  | @some attr attr' hattr =>
    obtain ⟨body, hdecode, rfl⟩ := hcode
    obtain ⟨code, bytes, hdecode', hdecode'', hbytes⟩ :=
      hattr.code (Attribute.of_find?_eq_some hfound).2
    obtain rfl := Except.ok.inj (hdecode.symm.trans hdecode')
    exact ⟨some { body with bytes },
      Member.codeIn_eq_ok.mpr ⟨some attr', hfound', _, hdecode'', rfl⟩, .some hbytes⟩

theorem exists_code {code' : Code} (hcode' : method'.codeIn p = .ok (some code')) :
    ∃ code, method.codeIn p = .ok (some code) ∧
      TurnedBytes analysis owners p code.bytes code'.bytes := by
  obtain ⟨found', hfound', -⟩ := Member.codeIn_eq_ok.mp hcode'
  obtain ⟨found, hfound, hrel⟩ := Attribute.find?_forall₂
    (R := fun attr' attr => TurnedAttribute analysis owners p attr attr')
    (fun _ _ hattr => hattr.name_eq.symm) h.attributes.flip hfound'
  have hread : ∃ code, method.codeIn p = .ok code := by
    cases hrel with
    | none => exact ⟨none, Member.codeIn_eq_ok.mpr ⟨none, hfound, rfl⟩⟩
    | @some attr' attr hattr =>
      obtain ⟨code, -, hdecode, -⟩ := hattr.code (Attribute.of_find?_eq_some hfound).2
      exact ⟨some code, Member.codeIn_eq_ok.mpr ⟨some attr, hfound, code, hdecode, rfl⟩⟩
  obtain ⟨code, hcode⟩ := hread
  obtain ⟨after, hafter, hrel⟩ := h.codeIn hcode
  obtain rfl := Except.ok.inj (hafter.symm.trans hcode')
  cases hrel with
  | some hbytes => exact ⟨_, hcode, hbytes⟩

theorem exists_instruction {instruction' : Instruction}
    (hmem : method'.HasInstruction p instruction') :
    ∃ instruction row, method.HasInstruction p instruction ∧
      TurnedInstruction analysis owners p instruction row ∧ instruction' ∈ row := by
  obtain ⟨code', instructions', hcode', hdecode', hmem⟩ := hmem
  obtain ⟨code, hcode, instructions, rows, hdecode, hrows, hturned⟩ := h.exists_code hcode'
  obtain rfl := Except.ok.inj (hdecode'.symm.trans hrows)
  obtain ⟨row, hrow, hmem⟩ := List.mem_flatten.mp hmem
  obtain ⟨instruction, hinstruction, hturned⟩ := forall₂_mem_right hturned hrow
  exact ⟨instruction, row, ⟨code, instructions, hcode, hdecode, hinstruction⟩, hturned, hmem⟩

theorem turned_at {instruction instruction' : Instruction}
    (hbefore : method.HasInstruction p instruction) (hafter : method'.HasInstruction p instruction')
    (hplace : instruction'.pc = instruction.pc) (hrefers : instruction'.action ≠ .other) :
    ∃ row, TurnedInstruction analysis owners p instruction row ∧ instruction' ∈ row := by
  obtain ⟨origin, row, horigin, hturned, hmem⟩ := h.exists_instruction hafter
  obtain ⟨code, instructions, hcode, hdecode, hbefore⟩ := hbefore
  obtain ⟨code', instructions', hcode', hdecode', horigin⟩ := horigin
  obtain rfl := Option.some.inj (Except.ok.inj (hcode.symm.trans hcode'))
  obtain rfl := Except.ok.inj (hdecode.symm.trans hdecode')
  have hpc := (hturned.pc_of_mem hmem hrefers).symm.trans hplace
  obtain rfl := Instruction.eq_of_pc_eq (Instruction.decode_eq_ok.mp hdecode).1 horigin hbefore hpc
  exact ⟨row, hturned, hmem⟩

end TurnedMethod

end Retarget

end StaticCompanion
