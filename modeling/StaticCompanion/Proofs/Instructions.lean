import StaticCompanion.ClassFile.Instruction
import StaticCompanion.Proofs.Steps

/-!
# Code as a row of instructions

How long an instruction is depends on its place, its opcode and its own operands, not on what
stands behind it. So code is cut into instructions in exactly one way, and an instruction can give
way to others that take up the same bytes without anything else being cut differently.
-/
namespace StaticCompanion.Instruction

def Complete (instruction : Instruction) : Prop :=
  operandCount instruction.pc instruction.opcode instruction.operands =
    .ok instruction.operands.length

/-- Complete instructions stand one behind the other, the first of them at `pc`. -/
def Tiles : (pc : Nat) → List Instruction → Prop
  | _, [] => True
  | pc, instruction :: rest =>
    instruction.pc = pc ∧ instruction.Complete ∧ Tiles (pc + instruction.bytes.length) rest

theorem length_bytes (instruction : Instruction) :
    instruction.bytes.length = 1 + instruction.operands.length := by
  simp [bytes, Nat.add_comm]

theorem signedAt_append {offset : Nat} {front rest : Bytes} (hlen : offset + 4 ≤ front.length) :
    signedAt offset (front ++ rest) = signedAt offset front := by
  have hdrop : 4 ≤ (front.drop offset).length := by
    rw [List.length_drop]
    omega
  unfold signedAt
  rw [List.drop_append_of_le_length (by omega)]
  generalize front.drop offset = bytes at hdrop ⊢
  rcases bytes with _ | ⟨a, _ | ⟨b, _ | ⟨c, _ | ⟨d, tail⟩⟩⟩⟩
  case cons.cons.cons.cons => rfl
  all_goals simp at hdrop

/-- An instruction with all its operands is not changed by the bytes behind it. -/
theorem operandCount_append {pc : Nat} {opcode : UInt8} {front rest : Bytes} :
    operandCount pc opcode (front ++ rest) = .ok front.length ↔
      operandCount pc opcode front = .ok front.length := by
  unfold operandCount
  by_cases htable : opcode.toNat = 0xAA
  · simp only [htable, if_true]
    by_cases hlen : padding pc + 12 ≤ front.length
    · rw [signedAt_append (by omega), signedAt_append (by omega)]
    · refine iff_of_false ?_ ?_ <;>
      · simp only [except_bind_eq_ok, not_exists, not_and]
        intro low _ high _
        split <;> simp [bind, Except.bind, throw, throwThe, MonadExceptOf.throw]
        omega
  simp only [htable, if_false]
  by_cases hlookup : opcode.toNat = 0xAB
  · simp only [hlookup, if_true]
    by_cases hlen : padding pc + 8 ≤ front.length
    · rw [signedAt_append (by omega)]
    · refine iff_of_false ?_ ?_ <;>
      · simp only [except_bind_eq_ok, not_exists, not_and]
        intro pairs _
        split <;> simp [bind, Except.bind, throw, throwThe, MonadExceptOf.throw]
        omega
  simp only [hlookup, if_false]
  by_cases hwide : opcode.toNat = 0xC4
  · simp only [hwide, if_true]
    cases front with
    | nil => simp only [List.nil_append]; split <;> simp
    | cons byte front =>
      rw [List.cons_append]
      by_cases hbyte : byte = 0x84 <;> simp [hbyte]
  · simp only [hwide, if_false]

theorem next_eq_ok_iff {pc : Nat} {opcode : UInt8} {code rest : Bytes}
    {instruction : Instruction} :
    next pc opcode code = .ok (instruction, rest) ↔
      opcode :: code = instruction.bytes ++ rest ∧ instruction.pc = pc ∧
        instruction.Complete := by
  constructor
  · intro hnext
    obtain ⟨hcode, hpc⟩ := next_eq_ok hnext
    refine ⟨hcode, hpc, ?_⟩
    simp only [next, except_bind_eq_ok] at hnext
    obtain ⟨count, hcount, hnext⟩ := hnext
    split at hnext
    · rename_i operands tail hsplit
      simp only [except_pure_eq_ok, Prod.mk.injEq] at hnext
      obtain ⟨rfl, rfl⟩ := hnext
      obtain ⟨rfl, rfl⟩ := splitExact_eq_some_iff.mp hsplit
      exact operandCount_append.mp hcount
    · exact absurd hnext except_throw_ne_ok
  · rintro ⟨hcode, rfl, hcomplete⟩
    obtain ⟨rfl, htail⟩ := List.cons.inj hcode
    replace htail : code = instruction.operands ++ rest := htail
    simp only [next, except_bind_eq_ok]
    refine ⟨_, htail ▸ operandCount_append.mpr hcomplete, ?_⟩
    rw [splitExact_eq_some_iff.mpr ⟨htail, rfl⟩]
    rfl

theorem decodeFrom_eq_ok {taken instructions : List Instruction} {pc : Nat} {code : Bytes} :
    decodeFrom taken pc code = .ok instructions ↔
      ∃ cut, instructions = taken.reverse ++ cut ∧ Tiles pc cut ∧ code = cut.flatMap bytes := by
  fun_induction decodeFrom taken pc code with
  | case1 taken pc =>
    constructor
    · intro hdone
      exact ⟨[], by simpa [eq_comm] using hdone, trivial, rfl⟩
    · rintro ⟨cut, rfl, -, hcode⟩
      cases cut with
      | nil => simp
      | cons instruction cut => simp [bytes] at hcode
  | case2 taken pc opcode rest flaw hnext =>
    simp only [reduceCtorEq, false_iff, not_exists, not_and]
    rintro cut rfl htiles hcode
    cases cut with
    | nil => simp at hcode
    | cons instruction cut =>
      obtain ⟨hpc, hcomplete, -⟩ := htiles
      rw [List.flatMap_cons] at hcode
      rw [next_eq_ok_iff.mpr ⟨hcode, hpc, hcomplete⟩] at hnext
      cases hnext
  | case3 taken pc opcode rest instruction rest' hnext ih =>
    obtain ⟨hcode, hpc, hcomplete⟩ := next_eq_ok_iff.mp hnext
    rw [ih]
    constructor
    · rintro ⟨cut, rfl, htiles, rfl⟩
      refine ⟨instruction :: cut, by simp, ⟨hpc, hcomplete, ?_⟩, hcode⟩
      rwa [length_bytes, ← Nat.add_assoc]
    · rintro ⟨cut, rfl, htiles, hcut⟩
      cases cut with
      | nil => simp at hcut
      | cons first cut =>
        obtain ⟨hfirst, hfirstComplete, htiles⟩ := htiles
        rw [List.flatMap_cons] at hcut
        have hsame := next_eq_ok_iff.mpr ⟨hcut, hfirst, hfirstComplete⟩
        rw [hnext] at hsame
        simp only [Except.ok.injEq, Prod.mk.injEq] at hsame
        obtain ⟨rfl, rfl⟩ := hsame
        refine ⟨cut, by simp, ?_, rfl⟩
        rwa [length_bytes, ← Nat.add_assoc] at htiles

/-- Code is cut into the complete instructions of which it is made. -/
theorem decode_eq_ok {code : Bytes} {instructions : List Instruction} :
    decode code = .ok instructions ↔ Tiles 0 instructions ∧ code = instructions.flatMap bytes := by
  rw [decode, decodeFrom_eq_ok]
  simp

theorem tiles_append {pc : Nat} {front rest : List Instruction} :
    Tiles pc (front ++ rest) ↔
      Tiles pc front ∧ Tiles (pc + (front.flatMap bytes).length) rest := by
  induction front generalizing pc with
  | nil => simp [Tiles]
  | cons instruction front ih =>
    simp only [List.cons_append, Tiles, ih, List.flatMap_cons, List.length_append, and_assoc,
      Nat.add_assoc]

theorem complete_of_mem {pc : Nat} {instructions : List Instruction}
    (htiles : Tiles pc instructions) {instruction : Instruction}
    (hmem : instruction ∈ instructions) : instruction.Complete := by
  induction instructions generalizing pc with
  | nil => cases hmem
  | cons first rest ih =>
    obtain ⟨-, hcomplete, htiles⟩ := htiles
    rcases List.mem_cons.mp hmem with rfl | hmem
    · exact hcomplete
    · exact ih htiles hmem

theorem le_pc_of_mem {pc : Nat} {instructions : List Instruction} (htiles : Tiles pc instructions)
    {instruction : Instruction} (hmem : instruction ∈ instructions) : pc ≤ instruction.pc := by
  induction instructions generalizing pc with
  | nil => cases hmem
  | cons first rest ih =>
    obtain ⟨rfl, -, htiles⟩ := htiles
    rcases List.mem_cons.mp hmem with rfl | hmem
    · exact Nat.le_refl _
    · exact Nat.le_trans (Nat.le_add_right _ _) (ih htiles hmem)

theorem eq_of_pc_eq {pc : Nat} {instructions : List Instruction} (htiles : Tiles pc instructions)
    {a b : Instruction} (ha : a ∈ instructions) (hb : b ∈ instructions) (hpc : a.pc = b.pc) :
    a = b := by
  induction instructions generalizing pc with
  | nil => cases ha
  | cons first rest ih =>
    obtain ⟨rfl, -, htiles⟩ := htiles
    have hbehind {instruction : Instruction} (hmem : instruction ∈ rest) :
        first.pc < instruction.pc := by
      have hle := le_pc_of_mem htiles hmem
      rw [length_bytes] at hle
      omega
    rcases List.mem_cons.mp ha with rfl | ha' <;> rcases List.mem_cons.mp hb with rfl | hb'
    · rfl
    · exact absurd hpc (Nat.ne_of_lt (hbehind hb'))
    · exact absurd hpc.symm (Nat.ne_of_lt (hbehind ha'))
    · exact ih htiles ha' hb'

/-- Each instruction gives way to a row of instructions that starts where it starts and takes up
as many bytes as it does. -/
theorem tiles_flatten {pc : Nat} {instructions : List Instruction} {rows : List (List Instruction)}
    (htiles : Tiles pc instructions)
    (hrows : List.Forall₂ (fun instruction row => Tiles instruction.pc row ∧
      (row.flatMap bytes).length = instruction.bytes.length) instructions rows) :
    Tiles pc rows.flatten := by
  induction hrows generalizing pc with
  | nil => trivial
  | cons hrow _ ih =>
    obtain ⟨rfl, -, htiles⟩ := htiles
    rw [List.flatten_cons, tiles_append, hrow.2]
    exact ⟨hrow.1, ih htiles⟩

section References
variable {instruction : Instruction} {index : UInt16}

theorem index_bigEndian (index : UInt16) (rest : Bytes) :
    ∃ high low, bigEndian 2 index.toNat ++ rest = high :: low :: rest ∧
      UInt16.ofNat (ofBigEndian [high, low]) = index := by
  refine ⟨_, _, rfl, ?_⟩
  have hsame := ofBigEndian_bigEndian 2 index.toNat
  simp only [bigEndian] at hsame
  rw [hsame, Nat.mod_eq_of_lt (by simpa [span] using index.toNat_lt)]
  simp

theorem action_eq_field_iff {access : FieldAccess} :
    instruction.action = .field access index ↔
      instruction.opcode = access.opcode ∧ ∃ high low rest,
        instruction.operands = high :: low :: rest ∧
          UInt16.ofNat (ofBigEndian [high, low]) = index := by
  obtain ⟨pc, opcode, operands⟩ := instruction
  constructor
  · intro haction
    unfold action at haction
    split at haction
    · rename_i high low rest hoperands
      dsimp only at haction hoperands
      split at haction <;> cases haction
      all_goals exact ⟨rfl, high, low, rest, hoperands, rfl⟩
    · cases haction
  · rintro ⟨rfl, high, low, rest, rfl, rfl⟩
    cases access <;> rfl

theorem action_eq_call_iff {kind : CallKind} :
    instruction.action = .call kind index ↔
      instruction.opcode = kind.opcode ∧ ∃ high low rest,
        instruction.operands = high :: low :: rest ∧
          UInt16.ofNat (ofBigEndian [high, low]) = index := by
  obtain ⟨pc, opcode, operands⟩ := instruction
  constructor
  · intro haction
    unfold action at haction
    split at haction
    · rename_i high low rest hoperands
      dsimp only at haction hoperands
      split at haction <;> cases haction
      all_goals exact ⟨rfl, high, low, rest, hoperands, rfl⟩
    · cases haction
  · rintro ⟨rfl, high, low, rest, rfl, rfl⟩
    cases kind <;> rfl

theorem complete_field_iff {pc : Nat} {access : FieldAccess} {operands : Bytes} :
    (⟨pc, access.opcode, operands⟩ : Instruction).Complete ↔ operands.length = 2 := by
  cases access <;> simp [Complete, operandCount, FieldAccess.opcode, eq_comm]

theorem complete_call_iff {pc : Nat} {kind : CallKind} {operands : Bytes} :
    (⟨pc, kind.opcode, operands⟩ : Instruction).Complete ↔
      operands.length = if kind = .interface then 4 else 2 := by
  cases kind <;> simp [Complete, operandCount, CallKind.opcode, eq_comm]

theorem length_operands_of_field {access : FieldAccess}
    (haction : instruction.action = .field access index) (hcomplete : instruction.Complete) :
    instruction.operands.length = 2 := by
  obtain ⟨pc, opcode, operands⟩ := instruction
  obtain ⟨rfl, -⟩ := action_eq_field_iff.mp haction
  exact complete_field_iff.mp hcomplete

theorem length_operands_of_call {kind : CallKind}
    (haction : instruction.action = .call kind index) (hcomplete : instruction.Complete) :
    instruction.operands.length = if kind = .interface then 4 else 2 := by
  obtain ⟨pc, opcode, operands⟩ := instruction
  obtain ⟨rfl, -⟩ := action_eq_call_iff.mp haction
  exact complete_call_iff.mp hcomplete

theorem complete_nop {pc : Nat} : (⟨pc, nop, []⟩ : Instruction).Complete := rfl

theorem action_nop {pc : Nat} : (⟨pc, nop, []⟩ : Instruction).action = .other := rfl

end References

end StaticCompanion.Instruction
