import StaticCompanion.ConstantPool.Basic

namespace StaticCompanion

namespace Format

def i32 : Format Int32 := u32.map UInt32.toInt32 Int32.toUInt32

def i64 : Format Int64 := u64.map UInt64.toInt64 Int64.toUInt64

end Format

namespace Entry

open Format in
def readPayload (tag : UInt8) : Reader Entry :=
  match tag with
  | 1 => utf8 <$> PoolText.format.read
  | 3 => integer <$> i32.read
  | 4 => float <$> u32.read
  | 5 => long <$> i64.read
  | 6 => double <$> u64.read
  | 7 => «class» <$> u16.read
  | 8 => string <$> u16.read
  | 9 => (fun (a, b) => memberRef .field a b) <$> (u16.seq u16).read
  | 10 => (fun (a, b) => memberRef .method a b) <$> (u16.seq u16).read
  | 11 => (fun (a, b) => memberRef .interfaceMethod a b) <$> (u16.seq u16).read
  | 12 => (fun (a, b) => nameAndType a b) <$> (u16.seq u16).read
  | 15 => (fun (a, b) => methodHandle a b) <$> (u8.seq u16).read
  | 16 => methodType <$> u16.read
  | 17 => (fun (a, b) => dynamic a b) <$> (u16.seq u16).read
  | 18 => (fun (a, b) => invokeDynamic a b) <$> (u16.seq u16).read
  | 19 => module <$> u16.read
  | 20 => package <$> u16.read
  | _ => throw (.unknownEntryTag tag)

open Format in
def writePayload : Entry → Except WriteFault Bytes
  | utf8 text => PoolText.format.write text
  | integer value => i32.write value
  | float bits => u32.write bits
  | long value => i64.write value
  | double bits => u64.write bits
  | «class» index | string index | methodType index | module index | package index =>
    u16.write index
  | memberRef _ first second | nameAndType first second | dynamic first second
  | invokeDynamic first second => (u16.seq u16).write (first, second)
  | methodHandle kind reference => (u8.seq u16).write (kind, reference)

def format : Format Entry where
  read := do readPayload (← Reader.byte)
  write entry := do return entry.kind.tag :: (← entry.writePayload)

end Entry

namespace ConstantPool

/-- Reads constants into the slots behind those that are filled, until `free` slots are taken. -/
def readSlots (slots : Array Slot) : (free : Nat) → Bytes → Except ReadFault (Array Slot × Bytes)
  | 0, bytes => .ok (slots, bytes)
  | free + 1, bytes =>
    match Entry.format.read bytes with
    | .error fault => .error fault
    | .ok (entry, rest) =>
      if entry.slots = 2 then
        match free with
        | 0 => .error .poolOverrun
        | free + 1 => readSlots ((slots.push (.entry entry)).push .gap) free rest
      else readSlots (slots.push (.entry entry)) free rest

/-- Reads a pool with a given count. The slot of position 0 counts as well. -/
def readCounted (count : UInt16) : Reader ConstantPool := fun bytes =>
  match count.toNat with
  | 0 => .error .poolOverrun
  | free + 1 => do
    let (slots, rest) ← readSlots #[.gap] free bytes
    return (⟨slots⟩, rest)

def format : Format ConstantPool where
  read := do readCounted (← Format.u16.read)
  write pool := do
    let constants ← pool.slots.toList.mapM fun
      | .entry entry => Entry.format.write entry
      | .gap => .ok []
    return bigEndian 2 pool.count.toNat ++ constants.flatten

end ConstantPool

end StaticCompanion
