import StaticCompanion.ClassFile.Fault
import StaticCompanion.Descriptor.Basic

namespace StaticCompanion

inductive LambdaFlaw where
  /-- The metafactory is not given a method type, a method handle and a method type. -/
  | invalidArguments (count : Nat)
  | alternativeFactory
  deriving DecidableEq, Repr

def LambdaFlaw.message : LambdaFlaw → String
  | invalidArguments count =>
    s!"invalid arguments to the lambda metafactory (number of arguments {count})"
  | alternativeFactory => "lambda altMetafactory"

inductive RelocationFault where
  | parse (fault : ClassFault)
  | generate (fault : WriteFault)
  | pool (fault : PoolFault)
  | descriptor (fault : InvalidDescriptor)
  /-- A supported field could change its value. -/
  | inconstantField (key : MemberKey)
  | noBody (key : MemberKey)
  | initializer (key : MemberKey)
  /-- A moved body of the named class creates a lambda that its companion cannot create. -/
  | unsupportedLambda (owner : String) (flaw : LambdaFlaw)
  deriving DecidableEq, Repr

def RelocationFault.message : RelocationFault → String
  | parse fault => s!"Failed to parse class file: {fault.message}"
  | generate fault => s!"Failed to generate class file: {fault.message}"
  | pool fault => s!"Constant pool error: {fault.message}"
  | descriptor fault => fault.message
  | inconstantField key => s!"Supported field {key.render} must be static final"
  | noBody key => s!"Method {key.render} is abstract or native and cannot be relocated"
  | initializer key =>
    s!"Method {key.render} cannot be relocated: initializers cannot be moved to another class"
  | unsupportedLambda owner flaw => s!"Unsupported lambda bootstrap in {owner}: {flaw.message}"

/-- A step of relocation that changes a pool. -/
abbrev Relocation (α : Type) := PoolM RelocationFault α

instance : MonadLift (Except ClassFault) (Except RelocationFault) where
  monadLift result := result.mapError .parse

instance : MonadLift (Except Malformation) (Except RelocationFault) where
  monadLift result := result.mapError (.parse ∘ .malformed)

instance : MonadLift (Except WriteFault) (Except RelocationFault) where
  monadLift result := result.mapError .generate

instance : MonadLift (Except PoolFault) (Except RelocationFault) where
  monadLift result := result.mapError .pool

instance : MonadLift (Except InvalidDescriptor) (Except RelocationFault) where
  monadLift result := result.mapError .descriptor

instance {σ : Type} : MonadLift (Except RelocationFault) (EStateM RelocationFault σ) where
  monadLift result := fun state =>
    match result with
    | .ok value => .ok value state
    | .error fault => .error fault state

instance : MonadLift (PoolM PoolFault) (PoolM RelocationFault) where
  monadLift change := fun pool =>
    match change pool with
    | .ok value pool => .ok value pool
    | .error fault pool => .error (.pool fault) pool

/-- The value of a step, and the pool it leaves, when the step is taken on a pool. -/
def Relocation.runOn {α : Type} (pool : ConstantPool) (step : Relocation α) :
    Except RelocationFault (α × ConstantPool) :=
  match step pool with
  | .ok value pool => .ok (value, pool)
  | .error fault _ => .error fault

end StaticCompanion
