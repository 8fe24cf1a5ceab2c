import StaticCompanion.ConstantPool.Basic

namespace StaticCompanion

/-- What does not fit together in a class file. -/
inductive Malformation where
  | trailingBytes (count : Nat)
  | trailingClassBytes
  | pool (fault : PoolFault)
  | thisClass (fault : PoolFault)
  | annotationType (fault : PoolFault)
  | notCallSite (index : UInt16)
  /-- A call site uses a bootstrap method that is not in the table. -/
  | noBootstrap (position : UInt16)
  | truncatedWide
  | truncatedSwitch
  | tableBounds
  | negativePairs
  | unknownOpcode (opcode : UInt8) (pc : Nat)
  | truncatedInstruction (opcode : UInt8) (pc : Nat)
  deriving DecidableEq, Repr

def Malformation.message : Malformation → String
  | trailingBytes count => s!"{count} trailing bytes in attribute"
  | trailingClassBytes => "Trailing bytes after the class file"
  | pool fault => fault.message
  | thisClass fault => s!"Invalid this_class: {fault.message}"
  | annotationType fault => s!"Invalid annotation type: {fault.message}"
  | notCallSite index =>
    s!"Constant pool index {index.toNat} is not an invokedynamic call site"
  | noBootstrap position => s!"Bootstrap method {position.toNat} does not exist"
  | truncatedWide => "Truncated wide instruction"
  | truncatedSwitch => "Truncated switch instruction"
  | tableBounds => "Invalid tableswitch bounds"
  | negativePairs => "Negative lookupswitch pair count"
  | unknownOpcode opcode pc => s!"Unknown opcode 0x{lowerHex opcode} at {pc}"
  | truncatedInstruction opcode pc => s!"Instruction 0x{lowerHex opcode} at {pc} is truncated"

inductive ClassFault where
  | read (fault : ReadFault)
  | malformed (flaw : Malformation)
  deriving DecidableEq, Repr

def ClassFault.message : ClassFault → String
  | read fault => s!"IO error: {fault.message}"
  | malformed flaw => s!"Malformed class file: {flaw.message}"

/-- The value whose layout fills a run of bytes; `surplus` is the fault of bytes left over. -/
def Format.readAll {α : Type} (format : Format α) (surplus : Nat → Malformation)
    (bytes : Bytes) : Except ClassFault α :=
  match format.read bytes with
  | .error fault => .error (.read fault)
  | .ok (value, []) => .ok value
  | .ok (_, rest) => .error (.malformed (surplus rest.length))

/-- The value that an attribute's payload holds. -/
def Format.decode {α : Type} (format : Format α) (info : Bytes) : Except ClassFault α :=
  format.readAll .trailingBytes info

end StaticCompanion
