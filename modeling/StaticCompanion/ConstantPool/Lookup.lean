import StaticCompanion.ConstantPool.Basic

namespace StaticCompanion.ConstantPool

def text (pool : ConstantPool) (index : UInt16) : Except PoolFault String := do
  match ← pool.entry index with
  | .utf8 (.valid text) => return text
  | .utf8 (.invalid _) => throw (.brokenText index)
  | other => throw (.mismatch index [.utf8] other.kind)

def className (pool : ConstantPool) (index : UInt16) : Except PoolFault String := do
  match ← pool.entry index with
  | .class name => pool.text name
  | other => throw (.mismatch index [.class] other.kind)

def nameAndType (pool : ConstantPool) (index : UInt16) : Except PoolFault (String × String) := do
  match ← pool.entry index with
  | .nameAndType name descriptor => return (← pool.text name, ← pool.text descriptor)
  | other => throw (.mismatch index [.nameAndType] other.kind)

/-- The field or method that the reference with an index refers to. -/
def member (pool : ConstantPool) (index : UInt16) : Except PoolFault MemberKey := do
  match ← pool.entry index with
  | .memberRef _ owner nameAndType =>
    let owner ← pool.className owner
    let (name, descriptor) ← pool.nameAndType nameAndType
    return ⟨owner, name, descriptor⟩
  | other => throw (.mismatch index [.fieldRef, .methodRef, .interfaceMethodRef] other.kind)

def methodHandle (pool : ConstantPool) (index : UInt16) : Except PoolFault (UInt8 × MemberKey) := do
  match ← pool.entry index with
  | .methodHandle kind reference => return (kind, ← pool.member reference)
  | other => throw (.mismatch index [.methodHandle] other.kind)

end StaticCompanion.ConstantPool
