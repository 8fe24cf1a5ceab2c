import StaticCompanion.ClassFile.Basic
import StaticCompanion.Relocation.Fault

namespace StaticCompanion

def metafactoryOwner : String := "java/lang/invoke/LambdaMetafactory"

def metafactory : String := "metafactory"

/-- The method that links serializable and other special lambdas. -/
def alternativeMetafactory : String := "altMetafactory"

/-- The linking method and the bootstrap of the call site with an index, if it is a lambda. -/
def lambdaBootstrap (pool : ConstantPool) (table : List Bootstrap) (site : UInt16) :
    Except RelocationFault (Option (String × Bootstrap)) := do
  match ← pool.entry site with
  | .invokeDynamic position _ =>
    match table[position.toNat]? with
    | none => throw (.parse (.malformed (.noBootstrap position)))
    | some bootstrap =>
      let (_, factory) ← pool.methodHandle bootstrap.method
      return if factory.owner = metafactoryOwner then some (factory.name, bootstrap) else none
  | _ => throw (.parse (.malformed (.notCallSite site)))

/-- The method handle with an index; constants of other kinds are none. -/
def handleAt? (pool : ConstantPool) (index : UInt16) : Except PoolFault (Option MemberKey) := do
  match ← pool.entry index with
  | .methodHandle .. => return some (← pool.methodHandle index).2
  | _ => return none

/-- The method that a bootstrap makes a lambda of, if it names one. -/
def lambdaBody (pool : ConstantPool) (bootstrap : Bootstrap) :
    Except PoolFault (Option MemberKey) :=
  match bootstrap.arguments[1]? with
  | some argument => handleAt? pool argument
  | none => .ok none

end StaticCompanion
