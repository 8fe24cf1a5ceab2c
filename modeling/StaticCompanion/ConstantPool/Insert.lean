import StaticCompanion.ConstantPool.Basic

namespace StaticCompanion.ConstantPool

def putText (text : String) : PoolM PoolFault UInt16 :=
  put (.utf8 (.valid text))

def putClass (name : String) : PoolM PoolFault UInt16 := do
  put (.class (← putText name))

def putNameAndType (name descriptor : String) : PoolM PoolFault UInt16 := do
  let name ← putText name
  let descriptor ← putText descriptor
  put (.nameAndType name descriptor)

def putMember (kind : RefKind) (key : MemberKey) : PoolM PoolFault UInt16 := do
  let owner ← putClass key.owner
  let nameAndType ← putNameAndType key.name key.descriptor
  put (.memberRef kind owner nameAndType)

/-- Puts a method handle on the member reference with an index. -/
def putMethodHandle (kind : UInt8) (reference : UInt16) : PoolM PoolFault UInt16 :=
  put (.methodHandle kind reference)

def putMethodType (descriptor : String) : PoolM PoolFault UInt16 := do
  put (.methodType (← putText descriptor))

end StaticCompanion.ConstantPool
