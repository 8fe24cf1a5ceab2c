import StaticCompanion.ClassFile.Basic
import StaticCompanion.ClassFile.Instruction
import StaticCompanion.ConstantPool.Insert
import StaticCompanion.Relocation.Analysis
import StaticCompanion.Relocation.Lambda

/-!
# Following moved members

Accesses to moved fields, calls of moved methods and lambdas made of them are turned to the
companion. A moved method is static, so each such call becomes a static one; a call through an
interface is longer than that and is filled up. No instruction changes its place.
-/
namespace StaticCompanion.Retarget

def staticHandle : UInt8 := 6

/-- An instruction whose first two operand bytes are another index. -/
def withIndex (instruction : Instruction) (index : UInt16) : Instruction :=
  { instruction with operands := bigEndian 2 index.toNat ++ instruction.operands.drop 2 }

/-- A static call in the place of a call; bytes that it does not need do nothing. -/
def staticCall (instruction : Instruction) (index : UInt16) : Instruction :=
  { instruction with
    opcode := CallKind.static.opcode
    operands := bigEndian 2 index.toNat ++
      (instruction.operands.drop 2).map fun _ => Instruction.nop }

/-- Whether calls of methods of a class may be turned; without a list of owners all may. -/
def eligible (owners : Option NameSet) (key : MemberKey) : Bool :=
  owners.all fun listed => listed.contains key.owner

/-- An instruction with its reference turned to the companion, if what it refers to moves. -/
def turnInstruction (analysis : Analysis) (owners : Option NameSet) (instruction : Instruction) :
    Relocation Instruction := do
  match instruction.action with
  | .field _ index =>
    let key ← (← get).member index
    match analysis.fields[key]? with
    | some moved => return withIndex instruction (← ConstantPool.putMember .field moved)
    | none => return instruction
  | .call _ index =>
    let key ← (← get).member index
    match if eligible owners key then analysis.methods[key]? else none with
    | some moved => return staticCall instruction (← ConstantPool.putMember .method moved)
    | none => return instruction
  | _ => return instruction

def turnCode (analysis : Analysis) (owners : Option NameSet) (code : Bytes) : Relocation Bytes := do
  let instructions ← (Instruction.decode code : Except Malformation _)
  let turned ← instructions.mapM (turnInstruction analysis owners)
  return turned.flatMap Instruction.bytes

/-- An attribute of a method with the references of its code turned to the companions. Code
without such references keeps its bytes. -/
def turnAttribute (analysis : Analysis) (owners : Option NameSet) (attr : Attribute) :
    Relocation Attribute := do
  if (← attr.sort (← get)) ≠ some .code then return attr
  let code ← Code.format.decode attr.info
  let bytes ← turnCode analysis owners code.bytes
  if bytes = code.bytes then return attr
  (attr.encode Code.format { code with bytes } : Except WriteFault Attribute)

def turnMethod (analysis : Analysis) (owners : Option NameSet) (method : Member) :
    Relocation Member := do
  return { method with attributes := ← method.attributes.mapM (turnAttribute analysis owners) }

/-- A bootstrap whose lambda is made of the moved method, if it is a plain lambda of a method that
moves. -/
def turnBootstrap (analysis : Analysis) (bootstrap : Bootstrap) : Relocation Bootstrap := do
  let (_, factory) ← (← get).methodHandle bootstrap.method
  if factory.owner ≠ metafactoryOwner ∨ factory.name ≠ metafactory then return bootstrap
  match ← lambdaBody (← get) bootstrap with
  | none => return bootstrap
  | some body =>
    match analysis.methods[body]? with
    | none => return bootstrap
    | some moved =>
      let reference ← ConstantPool.putMember .method moved
      let handle ← ConstantPool.putMethodHandle staticHandle reference
      return { bootstrap with arguments := bootstrap.arguments.set 1 handle }

def withTable (pool : ConstantPool) (table : List Bootstrap) (attr : Attribute) :
    Except RelocationFault Attribute := do
  if (← attr.sort pool) = some .bootstrapMethods then attr.encode Bootstrap.tableFormat table
  else return attr

def turnClass (file : ClassFile) (analysis : Analysis) (owners : Option NameSet) :
    Relocation ClassFile := do
  let table ← file.bootstraps
  let methods ← file.methods.mapM (turnMethod analysis owners)
  let turned ← table.mapM (turnBootstrap analysis)
  let pool ← get
  if turned = table then return { file with methods, pool }
  let attributes ← (file.attributes.mapM (withTable pool turned) : Except RelocationFault _)
  return { file with methods, attributes, pool }

end Retarget

/-- A class that uses moved members where they have moved to. Calls are turned only if their
owner is listed, or if there is no list. -/
def ClassFile.retarget (file : ClassFile) (analysis : Analysis) (owners : Option NameSet) :
    Except RelocationFault ClassFile := do
  return (← (Retarget.turnClass file analysis owners).runOn file.pool).1

end StaticCompanion
