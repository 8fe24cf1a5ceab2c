import Mathlib.Algebra.GroupWithZero.Nat
import Mathlib.Algebra.Ring.Int.Defs
import Mathlib.Data.List.Chain
import StaticCompanion.Proofs.Instructions

/-!
# Which code can be cut

How long the instructions of an opcode are is told by a table in the order of the opcodes, apart
from the two switches and from wide instructions, whose lengths depend on their operands and, for
the switches, on their place. Cutting succeeds exactly for the code that is a row of instructions of
these lengths, without a gap between them and without a rest.
-/
namespace StaticCompanion

/-- The two bytes at a place, as an index. -/
def indexAt (code : Bytes) (place : Nat) : Option UInt16 := do
  let high ← code[place]?
  let low ← code[place + 1]?
  return UInt16.ofNat (256 * high.toNat + low.toNat)

namespace Instruction

/-! ### The lengths of instructions -/

/-- Opcodes next to each other whose instructions are equally long. -/
structure OpcodeRun where
  first : UInt8
  last : UInt8
  /-- The number of bytes with the opcode. -/
  length : Nat

def opcodeRuns : List OpcodeRun :=
  [ ⟨0x00, 0x0F, 1⟩, -- constants that the opcode tells
    ⟨0x10, 0x10, 2⟩, ⟨0x11, 0x11, 3⟩, -- `bipush`, `sipush`
    ⟨0x12, 0x12, 2⟩, ⟨0x13, 0x14, 3⟩, -- `ldc`, and its wide forms
    ⟨0x15, 0x19, 2⟩, ⟨0x1A, 0x35, 1⟩, -- loads
    ⟨0x36, 0x3A, 2⟩, ⟨0x3B, 0x56, 1⟩, -- stores
    ⟨0x57, 0x83, 1⟩, -- the stack, arithmetic
    ⟨0x84, 0x84, 3⟩, -- `iinc`
    ⟨0x85, 0x98, 1⟩, -- conversions, comparisons
    ⟨0x99, 0xA8, 3⟩, ⟨0xA9, 0xA9, 2⟩, -- branches, `ret`
    ⟨0xAC, 0xB1, 1⟩, -- returns
    ⟨0xB2, 0xB8, 3⟩, ⟨0xB9, 0xBA, 5⟩, -- fields and calls
    ⟨0xBB, 0xBB, 3⟩, ⟨0xBC, 0xBC, 2⟩, ⟨0xBD, 0xBD, 3⟩, -- `new` and arrays
    ⟨0xBE, 0xBF, 1⟩, ⟨0xC0, 0xC1, 3⟩, ⟨0xC2, 0xC3, 1⟩, -- objects
    ⟨0xC5, 0xC5, 4⟩, -- arrays of several dimensions
    ⟨0xC6, 0xC7, 3⟩, ⟨0xC8, 0xC9, 5⟩, -- further branches
    ⟨0xCA, 0xCA, 1⟩ ] -- `breakpoint`

/-- The length of the instructions of an opcode, if they all have the same. -/
def fixedLength? (opcode : UInt8) : Option Nat :=
  (opcodeRuns.find? fun run => run.first ≤ opcode && opcode ≤ run.last).map OpcodeRun.length

/-- The signed number that a word of four bytes tells. -/
def signedWord (word : Bytes) : Int := (BitVec.ofNat 32 (ofBigEndian word)).toInt

/-- The padding of a switch reaches from its opcode at `pc` to the next multiple of four. -/
def Pads (pc : Nat) (pad : Bytes) : Prop := pad.length < 4 ∧ (pc + 1 + pad.length) % 4 = 0

/-- The bytes are an instruction, if they stand at `pc`. -/
inductive IsInstruction (pc : Nat) : Bytes → Prop
  | fixed {opcode : UInt8} {operands : Bytes}
      (hlength : fixedLength? opcode = some (operands.length + 1)) :
      IsInstruction pc (opcode :: operands)
  | tableSwitch {pad default low high offsets : Bytes} {entries : Nat} (hpad : Pads pc pad)
      (hdefault : default.length = 4) (hlow : low.length = 4) (hhigh : high.length = 4)
      (hentries : signedWord high - signedWord low + 1 = entries)
      (hoffsets : offsets.length = 4 * entries) :
      IsInstruction pc (0xAA :: (pad ++ (default ++ (low ++ (high ++ offsets)))))
  | lookupSwitch {pad default count rows : Bytes} {pairs : Nat} (hpad : Pads pc pad)
      (hdefault : default.length = 4) (hcount : count.length = 4)
      (hpairs : signedWord count = pairs) (hrows : rows.length = 8 * pairs) :
      IsInstruction pc (0xAB :: (pad ++ (default ++ (count ++ rows))))
  | wideIncrement {operands : Bytes} (hoperands : operands.length = 4) :
      IsInstruction pc (0xC4 :: 0x84 :: operands)
  | wide {opcode : UInt8} {operands : Bytes} (hother : opcode ≠ 0x84)
      (hoperands : operands.length = 2) : IsInstruction pc (0xC4 :: opcode :: operands)

/-- The pieces are instructions that stand one behind the other, the first of them at `pc`. -/
def AreInstructions : (pc : Nat) → (pieces : List Bytes) → Prop
  | _, [] => True
  | pc, piece :: pieces => IsInstruction pc piece ∧ AreInstructions (pc + piece.length) pieces

/-! ### Operands that are counted -/

section Counting
variable {pc : Nat} {opcode : UInt8} {operands : Bytes}

theorem fixedLength?_of_lt : ∀ n < 256, n ≠ 0xAA → n ≠ 0xAB → n ≠ 0xC4 →
    fixedLength? (UInt8.ofNat n) =
      (operandCount 0 (UInt8.ofNat n) []).toOption.map (· + 1) := by
  decide +kernel

theorem operandCount_fixed (htable : opcode.toNat ≠ 0xAA) (hlookup : opcode.toNat ≠ 0xAB)
    (hwide : opcode.toNat ≠ 0xC4) {count : Nat} :
    operandCount pc opcode operands = .ok count ↔ fixedLength? opcode = some (count + 1) := by
  have hplace : (operandCount pc opcode operands).toOption =
      (operandCount 0 opcode []).toOption := by
    simp only [operandCount, if_neg htable, if_neg hlookup, if_neg hwide]
    split_ifs <;> rfl
  have hlt : opcode.toNat < 256 := opcode.toNat_lt
  have hrun := fixedLength?_of_lt opcode.toNat hlt htable hlookup hwide
  rw [UInt8.ofNat_toNat, ← hplace] at hrun
  rw [hrun, Option.map_eq_some_iff, ← toOption_eq_some]
  simp

theorem signedAt_eq_ok {offset : Nat} {bytes : Bytes} {number : Int} :
    signedAt offset bytes = .ok number ↔
      offset + 4 ≤ bytes.length ∧ signedWord ((bytes.drop offset).take 4) = number := by
  unfold signedAt
  split
  · rename_i a b c d rest hdrop
    have hlen := congrArg List.length hdrop
    simp only [List.length_drop, List.length_cons] at hlen
    have hlt : ofBigEndian [a, b, c, d] < 2 ^ 32 := by
      simpa [span] using ofBigEndian_lt [a, b, c, d]
    rw [hdrop, List.take_succ_cons, List.take_succ_cons, List.take_succ_cons, List.take_succ_cons,
      List.take_zero, signedWord, BitVec.toInt_eq_toNat_cond, BitVec.toNat_ofNat,
      Nat.mod_eq_of_lt hlt, Except.ok.injEq]
    constructor
    · rintro rfl
      refine ⟨by omega, ?_⟩
      split_ifs <;> omega
    · rintro ⟨-, rfl⟩
      split_ifs <;> omega
  · rename_i hshort
    simp only [reduceCtorEq, false_iff, not_and]
    intro hlen
    exfalso
    have hdrop : 4 ≤ (bytes.drop offset).length := by
      rw [List.length_drop]
      omega
    generalize bytes.drop offset = tail at hshort hdrop
    rcases tail with _ | ⟨a, _ | ⟨b, _ | ⟨c, _ | ⟨d, tail⟩⟩⟩⟩
    case cons.cons.cons.cons => exact hshort a b c d tail rfl
    all_goals simp at hdrop

theorem signedAt_behind {front word back : Bytes} (hword : word.length = 4) :
    signedAt front.length (front ++ (word ++ back)) = .ok (signedWord word) := by
  refine signedAt_eq_ok.mpr ⟨by simp [hword], ?_⟩
  rw [List.drop_left, List.take_left' hword]

theorem padding_eq_iff {pad : Bytes} : Pads pc pad ↔ pad.length = padding pc := by
  unfold Pads padding
  omega

theorem operandCount_tableSwitch {count : Nat} : operandCount pc 0xAA operands = .ok count ↔
    ∃ low high : Int, ∃ entries : Nat, signedAt (padding pc + 4) operands = .ok low ∧
      signedAt (padding pc + 8) operands = .ok high ∧ high - low + 1 = entries ∧
      count = padding pc + 12 + 4 * entries := by
  simp only [operandCount, UInt8.reduceToNat, if_true, except_bind_eq_ok]
  constructor
  · rintro ⟨low, hlow, high, hhigh, hcount⟩
    split at hcount
    · cases hcount
    · exact ⟨low, high, _, hlow, hhigh, (Int.toNat_of_nonneg (by omega)).symm,
        (except_pure_eq_ok.mp hcount).symm⟩
  · rintro ⟨low, high, entries, hlow, hhigh, hentries, rfl⟩
    refine ⟨low, hlow, high, hhigh, ?_⟩
    rw [if_neg (by omega), hentries, Int.toNat_natCast]
    rfl

theorem operandCount_lookupSwitch {count : Nat} : operandCount pc 0xAB operands = .ok count ↔
    ∃ pairs : Nat, signedAt (padding pc + 4) operands = .ok (pairs : Int) ∧
      count = padding pc + 8 + 8 * pairs := by
  simp only [operandCount, UInt8.reduceToNat, Nat.reduceEqDiff, if_false, if_true,
    except_bind_eq_ok]
  constructor
  · rintro ⟨pairs, hpairs, hcount⟩
    split at hcount
    · cases hcount
    · obtain ⟨pairs, rfl⟩ := Int.eq_ofNat_of_zero_le (Int.not_lt.mp ‹_›)
      exact ⟨pairs, hpairs, (except_pure_eq_ok.mp hcount).symm⟩
  · rintro ⟨pairs, hpairs, rfl⟩
    refine ⟨pairs, hpairs, ?_⟩
    rw [if_neg (by omega), Int.toNat_natCast]
    rfl

end Counting

/-! ### Complete instructions -/

section Shapes
variable {pc : Nat} {operands pad default low high count rest : Bytes}

theorem exists_cut (bytes : Bytes) (n : Nat) (hlen : n ≤ bytes.length) :
    ∃ front back, bytes = front ++ back ∧ front.length = n :=
  ⟨bytes.take n, bytes.drop n, (List.take_append_drop n bytes).symm, List.length_take_of_le hlen⟩

theorem signedAt_first (hpad : Pads pc pad) (hdefault : default.length = 4)
    (hlow : low.length = 4) :
    signedAt (padding pc + 4) (pad ++ (default ++ (low ++ rest))) = .ok (signedWord low) := by
  have hplace : (pad ++ default).length = padding pc + 4 := by
    rw [List.length_append, hdefault, padding_eq_iff.mp hpad]
  rw [← hplace, ← List.append_assoc]
  exact signedAt_behind hlow

theorem signedAt_second (hpad : Pads pc pad) (hdefault : default.length = 4)
    (hlow : low.length = 4) (hhigh : high.length = 4) :
    signedAt (padding pc + 8) (pad ++ (default ++ (low ++ (high ++ rest)))) =
      .ok (signedWord high) := by
  have hplace : (pad ++ (default ++ low)).length = padding pc + 8 := by
    simp only [List.length_append, hdefault, hlow, padding_eq_iff.mp hpad]
  have hfront : pad ++ (default ++ (low ++ (high ++ rest))) =
      (pad ++ (default ++ low)) ++ (high ++ rest) := by
    simp only [List.append_assoc]
  rw [← hplace, hfront]
  exact signedAt_behind hhigh

theorem complete_tableSwitch : operandCount pc 0xAA operands = .ok operands.length ↔
    IsInstruction pc (0xAA :: operands) := by
  rw [operandCount_tableSwitch]
  constructor
  · rintro ⟨n, m, entries, hn, hm, hentries, hlen⟩
    obtain ⟨pad, rest, rfl, hpad⟩ := exists_cut operands (padding pc) (by omega)
    rw [List.length_append] at hlen
    obtain ⟨default, rest, rfl, hdefault⟩ := exists_cut rest 4 (by omega)
    rw [List.length_append] at hlen
    obtain ⟨low, rest, rfl, hlow⟩ := exists_cut rest 4 (by omega)
    rw [List.length_append] at hlen
    obtain ⟨high, offsets, rfl, hhigh⟩ := exists_cut rest 4 (by omega)
    rw [List.length_append] at hlen
    have hpads := padding_eq_iff.mpr hpad
    obtain rfl := Except.ok.inj (hn.symm.trans (signedAt_first hpads hdefault hlow))
    obtain rfl := Except.ok.inj (hm.symm.trans (signedAt_second hpads hdefault hlow hhigh))
    exact .tableSwitch hpads hdefault hlow hhigh hentries (by omega)
  · intro h
    cases h with
    | fixed hlength => exact absurd hlength (by simp [show fixedLength? 0xAA = none from rfl])
    | tableSwitch hpad hdefault hlow hhigh hentries hoffsets =>
      refine ⟨_, _, _, signedAt_first hpad hdefault hlow,
        signedAt_second hpad hdefault hlow hhigh, hentries, ?_⟩
      have hplace := padding_eq_iff.mp hpad
      simp only [List.length_append]
      omega

theorem complete_lookupSwitch : operandCount pc 0xAB operands = .ok operands.length ↔
    IsInstruction pc (0xAB :: operands) := by
  rw [operandCount_lookupSwitch]
  constructor
  · rintro ⟨pairs, hpairs, hlen⟩
    obtain ⟨pad, rest, rfl, hpad⟩ := exists_cut operands (padding pc) (by omega)
    rw [List.length_append] at hlen
    obtain ⟨default, rest, rfl, hdefault⟩ := exists_cut rest 4 (by omega)
    rw [List.length_append] at hlen
    obtain ⟨count, rows, rfl, hcount⟩ := exists_cut rest 4 (by omega)
    rw [List.length_append] at hlen
    have hpads := padding_eq_iff.mpr hpad
    have hnumber := Except.ok.inj (hpairs.symm.trans (signedAt_first hpads hdefault hcount))
    exact .lookupSwitch hpads hdefault hcount hnumber.symm (by omega)
  · intro h
    cases h with
    | fixed hlength => exact absurd hlength (by simp [show fixedLength? 0xAB = none from rfl])
    | lookupSwitch hpad hdefault hcount hpairs hrows =>
      refine ⟨_, hpairs ▸ signedAt_first hpad hdefault hcount, ?_⟩
      have hplace := padding_eq_iff.mp hpad
      simp only [List.length_append]
      omega

theorem complete_wide : operandCount pc 0xC4 operands = .ok operands.length ↔
    IsInstruction pc (0xC4 :: operands) := by
  have hincrement (rest : Bytes) : operandCount pc 0xC4 (0x84 :: rest) = .ok 5 := rfl
  have hother {opcode : UInt8} (hne : opcode ≠ 0x84) (rest : Bytes) :
      operandCount pc 0xC4 (opcode :: rest) = .ok 3 := by
    simp [operandCount, hne]
  constructor
  · intro h
    cases operands with
    | nil => cases h
    | cons opcode rest =>
      by_cases hopcode : opcode = 0x84
      · subst hopcode
        rw [hincrement] at h
        exact .wideIncrement (by simpa using (Except.ok.inj h).symm)
      · rw [hother hopcode] at h
        exact .wide hopcode (by simpa using (Except.ok.inj h).symm)
  · intro h
    cases h with
    | fixed hlength => exact absurd hlength (by simp [show fixedLength? 0xC4 = none from rfl])
    | wideIncrement hoperands => rw [hincrement, List.length_cons, hoperands]
    | wide hopcode hoperands => rw [hother hopcode, List.length_cons, hoperands]

end Shapes

theorem complete_iff {instruction : Instruction} :
    instruction.Complete ↔ IsInstruction instruction.pc instruction.bytes := by
  obtain ⟨pc, opcode, operands⟩ := instruction
  change operandCount pc opcode operands = .ok operands.length ↔
    IsInstruction pc (opcode :: operands)
  by_cases htable : opcode = 0xAA
  · rw [htable]
    exact complete_tableSwitch
  by_cases hlookup : opcode = 0xAB
  · rw [hlookup]
    exact complete_lookupSwitch
  by_cases hwide : opcode = 0xC4
  · rw [hwide]
    exact complete_wide
  have hne {other : UInt8} (h : opcode ≠ other) : opcode.toNat ≠ other.toNat :=
    fun hsame => h (UInt8.toNat_inj.mp hsame)
  rw [operandCount_fixed (hne htable) (hne hlookup) (hne hwide)]
  constructor
  · exact .fixed
  · intro h
    cases h with
    | fixed hlength => exact hlength
    | tableSwitch => exact absurd rfl htable
    | lookupSwitch => exact absurd rfl hlookup
    | wideIncrement => exact absurd rfl hwide
    | wide => exact absurd rfl hwide

/-! ### Rows of instructions -/

section Rows
variable {pc : Nat} {instructions : List Instruction} {instruction : Instruction}

theorem areInstructions_of_tiles (htiles : Tiles pc instructions) :
    AreInstructions pc (instructions.map bytes) := by
  induction instructions generalizing pc with
  | nil => trivial
  | cons first rest ih =>
    obtain ⟨rfl, hcomplete, htiles⟩ := htiles
    exact ⟨complete_iff.mp hcomplete, ih htiles⟩

theorem exists_tiles {pieces : List Bytes} (h : AreInstructions pc pieces) :
    ∃ instructions, Tiles pc instructions ∧ instructions.map bytes = pieces := by
  induction pieces generalizing pc with
  | nil => exact ⟨[], trivial, rfl⟩
  | cons piece pieces ih =>
    obtain ⟨hpiece, hrest⟩ := h
    obtain ⟨rest, htiles, rfl⟩ := ih hrest
    obtain ⟨opcode, operands, rfl⟩ : ∃ opcode operands, piece = opcode :: operands := by
      cases hpiece <;> exact ⟨_, _, rfl⟩
    exact ⟨⟨pc, opcode, operands⟩ :: rest, ⟨rfl, complete_iff.mpr hpiece, htiles⟩, rfl⟩

theorem pc_of_head? (htiles : Tiles pc instructions) (hfirst : instruction ∈ instructions.head?) :
    instruction.pc = pc := by
  cases instructions with
  | nil => cases hfirst
  | cons first rest =>
    obtain rfl := Option.some.inj hfirst
    exact htiles.1

theorem isChain_of_tiles (htiles : Tiles pc instructions) :
    instructions.IsChain fun before after => after.pc = before.pc + before.bytes.length := by
  induction instructions generalizing pc with
  | nil => exact .nil
  | cons first rest ih =>
    obtain ⟨rfl, -, htiles⟩ := htiles
    refine List.isChain_cons.mpr ⟨fun next hnext => ?_, ih htiles⟩
    exact pc_of_head? htiles hnext

theorem end_of_getLast? (htiles : Tiles pc instructions)
    (hlast : instruction ∈ instructions.getLast?) :
    instruction.pc + instruction.bytes.length = pc + (instructions.flatMap bytes).length := by
  obtain ⟨front, rfl⟩ := List.getLast?_eq_some_iff.mp hlast
  obtain ⟨-, hplace, -⟩ := tiles_append.mp htiles
  rw [hplace, List.flatMap_append, List.length_append, List.flatMap_singleton, Nat.add_assoc]

theorem prefix_of_mem (htiles : Tiles pc instructions) (hmem : instruction ∈ instructions) :
    instruction.bytes <+: (instructions.flatMap bytes).drop (instruction.pc - pc) := by
  obtain ⟨front, back, rfl⟩ := List.append_of_mem hmem
  obtain ⟨-, hplace, -⟩ := tiles_append.mp htiles
  rw [hplace, Nat.add_sub_cancel_left, List.flatMap_append, List.drop_left, List.flatMap_cons]
  exact List.prefix_append _ _

end Rows

/-! ### Operands in the code -/

/-- The instruction is one of the code: its bytes stand in the code at its place, and the members
and call sites that it refers to are told by the two bytes behind its opcode. -/
structure StandsIn (code : Bytes) (instruction : Instruction) : Prop where
  bytes : instruction.bytes <+: code.drop instruction.pc
  isInstruction : IsInstruction instruction.pc instruction.bytes
  field : ∀ access index, instruction.action = .field access index ↔
    instruction.opcode = access.opcode ∧ indexAt code (instruction.pc + 1) = some index
  call : ∀ kind index, instruction.action = .call kind index ↔
    instruction.opcode = kind.opcode ∧ indexAt code (instruction.pc + 1) = some index
  dynamicCall : ∀ index, instruction.action = .dynamicCall index ↔
    instruction.opcode = 0xBA ∧ indexAt code (instruction.pc + 1) = some index

section Operands
variable {code : Bytes} {instruction : Instruction}

theorem action_eq_dynamicCall_iff {index : UInt16} : instruction.action = .dynamicCall index ↔
    instruction.opcode = 0xBA ∧ ∃ high low rest, instruction.operands = high :: low :: rest ∧
      UInt16.ofNat (ofBigEndian [high, low]) = index := by
  obtain ⟨pc, opcode, operands⟩ := instruction
  constructor
  · intro haction
    unfold action at haction
    split at haction
    · rename_i high low rest hoperands
      dsimp only at haction hoperands
      split at haction <;> cases haction
      exact ⟨rfl, high, low, rest, hoperands, rfl⟩
    · cases haction
  · rintro ⟨rfl, high, low, rest, rfl, rfl⟩
    rfl

theorem indexAt_of_front {high low : UInt8} {rest : Bytes}
    (hplace : instruction.bytes <+: code.drop instruction.pc)
    (hoperands : instruction.operands = high :: low :: rest) :
    indexAt code (instruction.pc + 1) = some (UInt16.ofNat (ofBigEndian [high, low])) := by
  obtain ⟨back, hback⟩ := hplace
  rw [bytes, hoperands] at hback
  have hbyte (i : Nat) : code[instruction.pc + i]? =
      (instruction.opcode :: high :: low :: (rest ++ back))[i]? := by
    rw [← List.getElem?_drop, ← hback]
    rfl
  have hhigh : code[instruction.pc + 1]? = some high := hbyte 1
  have hlow : code[instruction.pc + 1 + 1]? = some low := hbyte 2
  simp [indexAt, hhigh, hlow, ofBigEndian, Nat.mul_comm]

theorem action_iff_indexAt {opcode : UInt8} {make : UInt16 → Action}
    (hplace : instruction.bytes <+: code.drop instruction.pc)
    (haction : ∀ index, instruction.action = make index ↔ instruction.opcode = opcode ∧
      ∃ high low rest, instruction.operands = high :: low :: rest ∧
        UInt16.ofNat (ofBigEndian [high, low]) = index)
    (hlen : instruction.opcode = opcode → 2 ≤ instruction.operands.length) (index : UInt16) :
    instruction.action = make index ↔
      instruction.opcode = opcode ∧ indexAt code (instruction.pc + 1) = some index := by
  rw [haction]
  apply and_congr_right
  intro hopcode
  obtain ⟨high, low, rest, hoperands⟩ : ∃ high low rest,
      instruction.operands = high :: low :: rest := by
    have hlong := hlen hopcode
    match hoperands : instruction.operands with
    | high :: low :: rest => exact ⟨high, low, rest, rfl⟩
    | [_] => simp [hoperands] at hlong
    | [] => simp [hoperands] at hlong
  rw [indexAt_of_front hplace hoperands, Option.some.injEq]
  constructor
  · rintro ⟨_, _, _, hsame, rfl⟩
    obtain ⟨rfl, rfl, rfl⟩ : _ ∧ _ ∧ _ := by simpa [hoperands] using hsame
    rfl
  · rintro rfl
    exact ⟨high, low, rest, hoperands, rfl⟩

theorem standsIn_of_mem {instructions : List Instruction} (htiles : Tiles 0 instructions)
    (hmem : instruction ∈ instructions) : instruction.StandsIn (instructions.flatMap bytes) := by
  have hplace := prefix_of_mem htiles hmem
  rw [Nat.sub_zero] at hplace
  have hcomplete := complete_of_mem htiles hmem
  refine ⟨hplace, complete_iff.mp hcomplete, fun access => ?_, fun kind => ?_, ?_⟩
  · refine action_iff_indexAt hplace (fun _ => action_eq_field_iff) fun hopcode => ?_
    obtain ⟨pc, opcode, operands⟩ := instruction
    obtain rfl : opcode = access.opcode := hopcode
    exact (complete_field_iff.mp hcomplete).ge
  · refine action_iff_indexAt hplace (fun _ => action_eq_call_iff) fun hopcode => ?_
    obtain ⟨pc, opcode, operands⟩ := instruction
    obtain rfl : opcode = kind.opcode := hopcode
    have hlen := complete_call_iff.mp hcomplete
    split at hlen <;> simp only [hlen] <;> omega
  · refine action_iff_indexAt hplace (fun _ => action_eq_dynamicCall_iff) fun hopcode => ?_
    obtain ⟨pc, opcode, operands⟩ := instruction
    obtain rfl : opcode = 0xBA := hopcode
    have hlen : (4 : Nat) = operands.length := Except.ok.inj hcomplete
    simp only [← hlen]
    omega

end Operands

/-! ### The size of the numbers -/

/-- What is worked out to find the end of an instruction at `pc` fits into 64 bits: the place behind
the bounds of a switch and the end of the instruction. All other numbers on the way are parts of
these sums. -/
def StaysInWord (pc : Nat) (opcode : UInt8) (rest : Bytes) : Prop :=
  pc + 1 + padding pc + 12 < 2 ^ 64 ∧
    ∀ count, operandCount pc opcode rest = .ok count → pc + 1 + count < 2 ^ 64

section Sizes
variable {pc count : Nat} {opcode : UInt8} {rest : Bytes}

theorem length_le_of_fixedLength? {length : Nat} (h : fixedLength? opcode = some length) :
    length ≤ 5 := by
  obtain ⟨run, hfound, rfl⟩ := Option.map_eq_some_iff.mp h
  have hall : ∀ run ∈ opcodeRuns, run.length ≤ 5 := by decide
  exact hall run (List.mem_of_find?_eq_some hfound)

theorem signedWord_bounds (word : Bytes) :
    -2 ^ 31 ≤ signedWord word ∧ signedWord word < 2 ^ 31 :=
  ⟨BitVec.le_toInt _, BitVec.toInt_lt⟩

theorem bounds_of_signedAt {offset : Nat} {number : Int}
    (h : signedAt offset rest = .ok number) : -2 ^ 31 ≤ number ∧ number < 2 ^ 31 := by
  obtain ⟨-, rfl⟩ := signedAt_eq_ok.mp h
  exact signedWord_bounds _

/-- A switch has less than 2 ^ 32 entries or 2 ^ 31 pairs, as its bounds are words of 32 bits. -/
theorem operandCount_le (h : operandCount pc opcode rest = .ok count) :
    count ≤ 15 + 4 * 2 ^ 32 := by
  have hpadding : padding pc ≤ 3 := by
    unfold padding
    omega
  by_cases htable : opcode.toNat = 0xAA
  · obtain rfl : opcode = 0xAA := UInt8.toNat_inj.mp htable
    obtain ⟨low, high, entries, hlow, hhigh, hentries, rfl⟩ := operandCount_tableSwitch.mp h
    have hlow := bounds_of_signedAt hlow
    have hhigh := bounds_of_signedAt hhigh
    omega
  by_cases hlookup : opcode.toNat = 0xAB
  · obtain rfl : opcode = 0xAB := UInt8.toNat_inj.mp hlookup
    obtain ⟨pairs, hpairs, rfl⟩ := operandCount_lookupSwitch.mp h
    have hpairs := bounds_of_signedAt hpairs
    omega
  by_cases hwide : opcode.toNat = 0xC4
  · simp only [operandCount, if_neg htable, if_neg hlookup, if_pos hwide] at h
    split at h <;> cases h <;> omega
  · have hlen := length_le_of_fixedLength? ((operandCount_fixed htable hlookup hwide).mp h)
    omega

theorem staysInWord (hpc : pc < 2 ^ 63) : StaysInWord pc opcode rest := by
  have hpadding : padding pc ≤ 3 := by
    unfold padding
    omega
  refine ⟨by omega, fun count hcount => ?_⟩
  have hle := operandCount_le hcount
  omega

end Sizes

/-- Code is cut if it is a row of instructions of the lengths that their opcodes have, one behind
the other and without a rest. The instructions are then those of the row in their places: the first
stands at the start, each next one where the one before it ends, and the last one ends with the
code. No number that is worked out on the way is too great for code that has a length of 63 bits. -/
theorem decode_tilesCode (code : Bytes) :
    ((∃ instructions, decode code = .ok instructions) ↔
      ∃ pieces, AreInstructions 0 pieces ∧ pieces.flatten = code) ∧
    (∀ instructions, decode code = .ok instructions →
      instructions.flatMap bytes = code ∧
      (∀ first ∈ instructions.head?, first.pc = 0) ∧
      instructions.IsChain (fun before after => after.pc = before.pc + before.bytes.length) ∧
      (∀ last ∈ instructions.getLast?, last.pc + last.bytes.length = code.length) ∧
      ∀ instruction ∈ instructions, instruction.StandsIn code) ∧
    (code.length < 2 ^ 63 → ∀ front opcode rest, code = front ++ opcode :: rest →
      StaysInWord front.length opcode rest) := by
  refine ⟨⟨?_, ?_⟩, fun instructions hdecode => ?_, fun hlen front opcode rest hcode => ?_⟩
  · rintro ⟨instructions, hdecode⟩
    obtain ⟨htiles, rfl⟩ := decode_eq_ok.mp hdecode
    exact ⟨_, areInstructions_of_tiles htiles, rfl⟩
  · rintro ⟨pieces, hpieces, rfl⟩
    obtain ⟨instructions, htiles, rfl⟩ := exists_tiles hpieces
    exact ⟨instructions, decode_eq_ok.mpr ⟨htiles, rfl⟩⟩
  · obtain ⟨htiles, rfl⟩ := decode_eq_ok.mp hdecode
    refine ⟨rfl, fun first => pc_of_head? htiles, isChain_of_tiles htiles, fun last hlast => ?_,
      fun instruction => standsIn_of_mem htiles⟩
    rw [end_of_getLast? htiles hlast, Nat.zero_add]
  · apply staysInWord
    rw [hcode, List.length_append] at hlen
    omega

/-- A switch that is padded by two bytes, a call through an interface and a return. -/
def switchCode : Bytes :=
  [0x00] ++ ([0xAA, 0, 0] ++ [0, 0, 0, 0] ++ [0, 0, 0, 0] ++ [0, 0, 0, 1] ++
    [0, 0, 0, 23, 0, 0, 0, 28]) ++ [0xB9, 1, 2, 1, 0] ++ [0xB1]

theorem decode_tilesCode_of_switch :
    ∃ instructions, decode switchCode = .ok instructions ∧
      instructions.map Instruction.pc = [0, 1, 24, 29] ∧
      (∃ call ∈ instructions, call.pc = 24 ∧ call.action = .call .interface 0x102) ∧
      switchCode.length < 2 ^ 63 ∧ StaysInWord 1 0xAA (switchCode.drop 2) := by
  have hrun : (decode switchCode).toOption.map (fun instructions =>
      (instructions.map Instruction.pc, instructions[2]?)) =
      some ([0, 1, 24, 29], some ⟨24, 0xB9, [1, 2, 1, 0]⟩) := by decide +kernel
  obtain ⟨instructions, hfound, hresult⟩ := Option.map_eq_some_iff.mp hrun
  obtain ⟨hplaces, hcall⟩ := Prod.mk.inj hresult
  have hdecode := toOption_eq_some.mp hfound
  obtain ⟨-, hrow, hword⟩ := decode_tilesCode switchCode
  have hmem := List.mem_of_getElem? hcall
  have hstands := (hrow instructions hdecode).2.2.2.2 _ hmem
  refine ⟨instructions, hdecode, hplaces, ⟨_, hmem, rfl, ?_⟩, by decide, ?_⟩
  · exact (hstands.call .interface 0x102).mpr ⟨rfl, by decide⟩
  · exact hword (by decide) [0x00] 0xAA _ rfl

end Instruction

end StaticCompanion
