import StaticCompanion.ClassFile.Fault

/-!
# Instructions

Code is cut into instructions by their lengths. Only the instructions that refer to members and
call sites are understood further; all others are kept as an opcode with operands. Cutting loses
nothing: the bytes of the instructions, one behind the other, are the code.
-/
namespace StaticCompanion

/-- An instruction at its place in the code. -/
structure Instruction where
  /-- The position of the opcode. -/
  pc : Nat
  opcode : UInt8
  operands : Bytes
  deriving DecidableEq, Repr

inductive FieldAccess where
  | getStatic | putStatic | getField | putField
  deriving DecidableEq, Repr

inductive CallKind where
  | virtual | special | static | interface
  deriving DecidableEq, Repr

/-- What an instruction refers to, by index. -/
inductive Action where
  | field (access : FieldAccess) (index : UInt16)
  | call (kind : CallKind) (index : UInt16)
  | dynamicCall (index : UInt16)
  | other
  deriving DecidableEq, Repr

namespace FieldAccess

def opcode : FieldAccess → UInt8
  | getStatic => 0xB2
  | putStatic => 0xB3
  | getField => 0xB4
  | putField => 0xB5

def name : FieldAccess → String
  | getStatic => "getstatic"
  | putStatic => "putstatic"
  | getField => "getfield"
  | putField => "putfield"

end FieldAccess

namespace CallKind

def opcode : CallKind → UInt8
  | virtual => 0xB6
  | special => 0xB7
  | static => 0xB8
  | interface => 0xB9

def name : CallKind → String
  | virtual => "virtual"
  | special => "special"
  | static => "static"
  | interface => "interface"

end CallKind

namespace Instruction

def nop : UInt8 := 0x00

def bytes (instruction : Instruction) : Bytes := instruction.opcode :: instruction.operands

/-- What an instruction does with the index in its first two operand bytes. -/
def action (instruction : Instruction) : Action :=
  match instruction.operands with
  | high :: low :: _ =>
    let index := UInt16.ofNat (ofBigEndian [high, low])
    match instruction.opcode with
    | 0xB2 => .field .getStatic index
    | 0xB3 => .field .putStatic index
    | 0xB4 => .field .getField index
    | 0xB5 => .field .putField index
    | 0xB6 => .call .virtual index
    | 0xB7 => .call .special index
    | 0xB8 => .call .static index
    | 0xB9 => .call .interface index
    | 0xBA => .dynamicCall index
    | _ => .other
  | _ => .other

/-- The number of bytes between a switch's opcode and the next multiple of four. -/
def padding (pc : Nat) : Nat := (4 - (pc + 1) % 4) % 4

def signedAt (offset : Nat) (bytes : Bytes) : Except Malformation Int :=
  match bytes.drop offset with
  | a :: b :: c :: d :: _ =>
    let number := ofBigEndian [a, b, c, d]
    .ok (if number < 0x80000000 then number else number - 0x100000000)
  | _ => .error .truncatedSwitch

/-- The number of operand bytes of an opcode at a place, which for some opcodes depends on the
bytes behind it. -/
def operandCount (pc : Nat) (opcode : UInt8) (rest : Bytes) : Except Malformation Nat :=
  let code := opcode.toNat
  if code = 0xAA then do
    let low ← signedAt (padding pc + 4) rest
    let high ← signedAt (padding pc + 8) rest
    if high - low + 1 < 0 then throw .tableBounds
    return padding pc + 12 + 4 * (high - low + 1).toNat
  else if code = 0xAB then do
    let pairs ← signedAt (padding pc + 4) rest
    if pairs < 0 then throw .negativePairs
    return padding pc + 8 + 8 * pairs.toNat
  else if code = 0xC4 then
    match rest with
    | [] => .error .truncatedWide
    | 0x84 :: _ => .ok 5
    | _ => .ok 3
  else if code ≤ 0x0F ∨ 0x1A ≤ code ∧ code ≤ 0x35 ∨ 0x3B ≤ code ∧ code ≤ 0x83 ∨
      0x85 ≤ code ∧ code ≤ 0x98 ∨ 0xAC ≤ code ∧ code ≤ 0xB1 ∨ code = 0xBE ∨ code = 0xBF ∨
      code = 0xC2 ∨ code = 0xC3 ∨ code = 0xCA then .ok 0
  else if code = 0x10 ∨ code = 0x12 ∨ 0x15 ≤ code ∧ code ≤ 0x19 ∨ 0x36 ≤ code ∧ code ≤ 0x3A ∨
      code = 0xA9 ∨ code = 0xBC then .ok 1
  else if code = 0x11 ∨ code = 0x13 ∨ code = 0x14 ∨ code = 0x84 ∨ 0x99 ≤ code ∧ code ≤ 0xA8 ∨
      0xB2 ≤ code ∧ code ≤ 0xB8 ∨ code = 0xBB ∨ code = 0xBD ∨ code = 0xC0 ∨ code = 0xC1 ∨
      code = 0xC6 ∨ code = 0xC7 then .ok 2
  else if code = 0xC5 then .ok 3
  else if code = 0xB9 ∨ code = 0xBA ∨ code = 0xC8 ∨ code = 0xC9 then .ok 4
  else .error (.unknownOpcode opcode pc)

/-- Takes the instruction at a place off the code that starts there. -/
def next (pc : Nat) (opcode : UInt8) (rest : Bytes) :
    Except Malformation (Instruction × Bytes) := do
  match splitExact (← operandCount pc opcode rest) rest with
  | some (operands, rest) => return (⟨pc, opcode, operands⟩, rest)
  | none => throw (.truncatedInstruction opcode pc)

theorem next_eq_ok {pc : Nat} {opcode : UInt8} {bytes rest : Bytes} {instruction : Instruction}
    (cut : next pc opcode bytes = .ok (instruction, rest)) :
    opcode :: bytes = instruction.bytes ++ rest ∧ instruction.pc = pc := by
  unfold next at cut
  cases counted : operandCount pc opcode bytes with
  | error flaw => simp [counted, bind, Except.bind] at cut
  | ok count =>
    simp only [counted, bind, Except.bind] at cut
    split at cut
    · rename_i operands tail split
      simp only [pure, Except.pure, Except.ok.injEq, Prod.mk.injEq] at cut
      obtain ⟨rfl, rfl⟩ := cut
      obtain ⟨rfl, -⟩ := splitExact_eq_some_iff.mp split
      exact ⟨rfl, rfl⟩
    · simp [throw, throwThe, MonadExceptOf.throw] at cut

theorem next_length_le {pc : Nat} {opcode : UInt8} {bytes rest : Bytes} {instruction : Instruction}
    (cut : next pc opcode bytes = .ok (instruction, rest)) : rest.length ≤ bytes.length := by
  have same := congrArg List.length (next_eq_ok cut).1
  simp only [Instruction.bytes, List.length_cons, List.length_append] at same
  omega

/-- Cuts the code that starts at a place into instructions, behind those that are cut already. -/
def decodeFrom (taken : List Instruction) (pc : Nat) (code : Bytes) :
    Except Malformation (List Instruction) :=
  match code with
  | [] => .ok taken.reverse
  | opcode :: rest =>
    match _cut : next pc opcode rest with
    | .error flaw => .error flaw
    | .ok (instruction, rest') =>
      decodeFrom (instruction :: taken) (pc + 1 + instruction.operands.length) rest'
termination_by code.length
decreasing_by exact Nat.lt_succ_of_le (next_length_le _cut)

def decode (code : Bytes) : Except Malformation (List Instruction) :=
  decodeFrom [] 0 code

end Instruction

end StaticCompanion
