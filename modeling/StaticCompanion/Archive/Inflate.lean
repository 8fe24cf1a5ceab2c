import StaticCompanion.Archive.CodeTree
import StaticCompanion.Bytes

/-!
# Unpacking

Packed data is a run of bits, the lowest bit of each byte first. It consists of blocks; a block
holds bytes as they are, or symbols of two codes. A symbol stands for a byte, for the end of the
block, or for the length of a run that is copied from what was unpacked before; the distance to
copy from is a symbol of the second code. Data that ends in front of its last block's end is
refused; what follows that end is passed over.
-/
namespace StaticCompanion

namespace Inflate

/-- The bits that are left, and the bytes that are unpacked. -/
structure Stream where
  bits : List Bool
  output : Array UInt8

abbrev InflateM (α : Type) := StateT Stream Option α

def bitsOfByte (byte : UInt8) : List Bool :=
  (List.range 8).map byte.toNat.testBit

def bit : InflateM Bool := do
  let stream ← get
  match stream.bits with
  | [] => failure
  | bit :: bits => do
    set { stream with bits }
    return bit

def number : (width : Nat) → InflateM Nat
  | 0 => return 0
  | width + 1 => do
    let low ← bit
    return low.toNat + 2 * (← number width)

def symbol : CodeTree → InflateM Nat
  | .unused => failure
  | .symbol value => return value
  | .fork zero one => do if ← bit then symbol one else symbol zero

def emit (byte : UInt8) : InflateM Unit :=
  modify fun stream => { stream with output := stream.output.push byte }

/-- Copies a run of bytes that starts `distance` bytes back. The run may reach into itself. -/
def copyBack (distance : Nat) : (length : Nat) → InflateM Unit
  | 0 => return
  | length + 1 => do
    let output := (← get).output
    match output[output.size - distance]? with
    | none => failure
    | some byte => do
      emit byte
      copyBack distance length

/-- The two codes of a block. -/
structure Codes where
  literals : CodeTree
  distances : CodeTree

/-- A number that is a symbol's base and some more bits. -/
def based (base : Nat) (width : Nat) : InflateM Nat := do return base + (← number width)

/-- The least length that each symbol of a length stands for, and the width of what is added. -/
def lengthTable : List (Nat × Nat) :=
  [(3, 0), (4, 0), (5, 0), (6, 0), (7, 0), (8, 0), (9, 0), (10, 0), (11, 1), (13, 1), (15, 1),
    (17, 1), (19, 2), (23, 2), (27, 2), (31, 2), (35, 3), (43, 3), (51, 3), (59, 3), (67, 4),
    (83, 4), (99, 4), (115, 4), (131, 5), (163, 5), (195, 5), (227, 5), (258, 0)]

/-- The least distance that each symbol of a distance stands for, and the width of what is
added. -/
def distanceTable : List (Nat × Nat) :=
  [(1, 0), (2, 0), (3, 0), (4, 0), (5, 1), (7, 1), (9, 2), (13, 2), (17, 3), (25, 3), (33, 4),
    (49, 4), (65, 5), (97, 5), (129, 6), (193, 6), (257, 7), (385, 7), (513, 8), (769, 8),
    (1025, 9), (1537, 9), (2049, 10), (3073, 10), (4097, 11), (6145, 11), (8193, 12),
    (12289, 12), (16385, 13), (24577, 13)]

def endOfBlock : Nat := 256

def tabled (table : List (Nat × Nat)) (symbol : Nat) : InflateM Nat :=
  match table[symbol]? with
  | none => failure
  | some (base, width) => based base width

def run (codes : Codes) (lengthSymbol : Nat) : InflateM Unit := do
  let length ← tabled lengthTable lengthSymbol
  let distance ← tabled distanceTable (← symbol codes.distances)
  if (← get).output.size < distance then failure
  copyBack distance length

/-- Unpacks the symbols of a block, at most `budget` of them. -/
def symbols (codes : Codes) : (budget : Nat) → InflateM Unit
  | 0 => failure
  | budget + 1 => do
    let value ← symbol codes.literals
    if value = endOfBlock then return
    if value < endOfBlock then emit (UInt8.ofNat value) else run codes (value - endOfBlock - 1)
    symbols codes budget

def align : InflateM Unit :=
  modify fun stream => { stream with bits := stream.bits.drop (stream.bits.length % 8) }

/-- Unpacks bytes that are held as they are. -/
def verbatim : (count : Nat) → InflateM Unit
  | 0 => return
  | count + 1 => do
    emit (UInt8.ofNat (← number 8))
    verbatim count

/-- Unpacks a block of bytes that are held as they are. Its length is told twice. -/
def storedBlock : InflateM Unit := do
  align
  let count ← number 16
  let complement ← number 16
  if count + complement ≠ 0xFFFF then failure
  verbatim count

/-- The codes of a block that does not tell its own. -/
def fixedCodes : Codes where
  literals := CodeTree.ofLengths (List.replicate 144 8 ++ List.replicate 112 9 ++
    List.replicate 24 7 ++ List.replicate 8 8)
  distances := CodeTree.ofLengths (List.replicate 32 5)

/-- The order in which the lengths of the words for lengths are told. -/
def lengthOrder : List Nat := [16, 17, 18, 0, 8, 7, 9, 6, 10, 5, 11, 4, 12, 3, 13, 2, 14, 1, 15]

/-- The code of lengths, whose own lengths are told in `lengthOrder`; those not told are zero. -/
def lengthCode (told : List Nat) : InflateM CodeTree := do
  let pairs := lengthOrder.zip told
  let lengths := (List.range lengthOrder.length).map fun value => (pairs.lookup value).getD 0
  if CodeTree.isComplete lengths then return CodeTree.ofLengths lengths else failure

/-- Takes `missing` more lengths. A symbol stands for a length or for a repetition of the last
length or of zero; a repetition stays within what is missing. The lengths so far are held last
first. -/
def lengths (code : CodeTree) : (budget missing : Nat) → (taken : List Nat) → InflateM (List Nat)
  | _, 0, taken => return taken.reverse
  | 0, _, _ => failure
  | budget + 1, missing, taken => do
    let value ← symbol code
    let (length, count) ←
      if value < 16 then pure (value, 1)
      else if value = 16 then
        match taken with
        | [] => failure
        | last :: _ => do pure (last, ← based 3 2)
      else if value = 17 then do pure (0, ← based 3 3)
      else do pure (0, ← based 11 7)
    if missing < count then failure
    lengths code budget (missing - count) (List.replicate count length ++ taken)

def shortLengths : (count : Nat) → InflateM (List Nat)
  | 0 => return []
  | count + 1 => do return (← number 3) :: (← shortLengths count)

def ownCodes : InflateM Codes := do
  let literalCount ← based 257 5
  let distanceCount ← based 1 5
  let lengthCount ← based 4 4
  if 286 < literalCount ∨ 30 < distanceCount then failure
  let code ← lengthCode (← shortLengths lengthCount)
  let total := literalCount + distanceCount
  let all ← lengths code total total []
  let literals := all.take literalCount
  let distances := all.drop literalCount
  if literals[endOfBlock]? = some 0 then failure
  if !(CodeTree.isComplete literals || CodeTree.isSingle literals) then failure
  if !(CodeTree.isComplete distances || CodeTree.isSingle distances ||
      CodeTree.isEmpty distances) then failure
  return ⟨CodeTree.ofLengths literals, CodeTree.ofLengths distances⟩

/-- Unpacks a block; a symbol of it takes at least one bit. -/
def block : InflateM Unit := do
  match ← number 2 with
  | 0 => storedBlock
  | 1 => symbols fixedCodes ((← get).bits.length + 1)
  | 2 =>
    let codes ← ownCodes
    symbols codes ((← get).bits.length + 1)
  | _ => failure

/-- Unpacks blocks up to the last, at most `budget` of them. -/
def blocks : (budget : Nat) → InflateM Unit
  | 0 => failure
  | budget + 1 => do
    let isLast ← bit
    block
    if isLast then return
    blocks budget

end Inflate

/-- The data that was packed to the given bytes, if they have a meaning. -/
def inflate (packed : Bytes) : Option Bytes := do
  let bits := packed.flatMap Inflate.bitsOfByte
  let ((), stream) ← Inflate.blocks (bits.length + 1) ⟨bits, #[]⟩
  return stream.output.toList

end StaticCompanion
