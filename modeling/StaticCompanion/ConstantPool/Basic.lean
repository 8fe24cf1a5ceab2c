import StaticCompanion.ConstantPool.Entry
import StaticCompanion.MemberKey

/-!
# Constant pools

A pool is a row of slots. A constant's index is the position of its slot; position 0 holds no
constant, and a constant of two slots is followed by a gap. Pools only grow at their end, so an
index stays valid, and only `replace` changes what it holds. A failed change reports the pool it
leaves behind, because a change that puts several constants may fail halfway.
-/
namespace StaticCompanion

/-- A place in a pool. -/
inductive Slot where
  | entry (entry : Entry)
  | gap
  deriving DecidableEq, Repr

structure ConstantPool where
  slots : Array Slot
  deriving DecidableEq, Repr

inductive PoolFault where
  | badIndex (index : UInt16)
  | full
  /-- The text constant with this index is no text. -/
  | brokenText (index : UInt16)
  | mismatch (index : UInt16) (expected : List EntryKind) (found : EntryKind)
  deriving DecidableEq, Repr

def PoolFault.message : PoolFault → String
  | badIndex index => s!"Bad constant pool index: {index.toNat}"
  | full => "The constant pool is full"
  | brokenText index => s!"Broken UTF-8 string at constant pool index {index.toNat}"
  | mismatch index expected found =>
    let wanted := " | ".intercalate (expected.map EntryKind.name)
    s!"Expected {wanted} at constant pool index {index.toNat}, found {found.name}"

/-- A change of a pool that may fail, and leaves a pool behind in either case. -/
abbrev PoolM (ε : Type) (α : Type) := EStateM ε ConstantPool α

namespace ConstantPool

def empty : ConstantPool := ⟨#[.gap]⟩

def capacity : Nat := 65535

/-- The count that is written in front of the pool: one more than the largest index. -/
def count (pool : ConstantPool) : UInt16 := UInt16.ofNat pool.slots.size

def entry (pool : ConstantPool) (index : UInt16) : Except PoolFault Entry :=
  match pool.slots[index.toNat]? with
  | some (.entry entry) => .ok entry
  | _ => .error (.badIndex index)

def entries (pool : ConstantPool) : List (UInt16 × Entry) :=
  pool.slots.toList.zipIdx.filterMap fun
    | (.entry entry, position) => some (UInt16.ofNat position, entry)
    | (.gap, _) => none

/-- The position of the first constant that is the same as a given one. -/
def position? (pool : ConstantPool) (entry : Entry) : Option Nat :=
  pool.slots.findIdx? fun
    | .entry other => other.same entry
    | .gap => false

def append (pool : ConstantPool) (entry : Entry) : ConstantPool :=
  let slots := pool.slots.push (.entry entry)
  ⟨if entry.slots = 2 then slots.push .gap else slots⟩

/-- The index of a constant, which is put behind the others unless it is there already. -/
def put (entry : Entry) : PoolM PoolFault UInt16 := fun pool =>
  match pool.position? entry with
  | some position => .ok (UInt16.ofNat position) pool
  | none =>
    if pool.slots.size + entry.slots ≤ capacity then .ok pool.count (pool.append entry)
    else .error .full pool

/-- Puts a constant in the place of another one that takes up as many slots. -/
def replace (index : UInt16) (entry : Entry) : PoolM PoolFault Unit := fun pool =>
  match pool.entry index with
  | .error fault => .error fault pool
  | .ok current =>
    if current.slots = entry.slots then
      .ok () ⟨pool.slots.setIfInBounds index.toNat (.entry entry)⟩
    else .error (.mismatch index [current.kind] entry.kind) pool

/-- Two pools hold the same constants in the same slots. -/
def same (left right : ConstantPool) : Bool :=
  left.slots.size == right.slots.size && (left.slots.zip right.slots).all fun
    | (.entry a, .entry b) => a.same b
    | (.gap, .gap) => true
    | _ => false

end ConstantPool

end StaticCompanion
