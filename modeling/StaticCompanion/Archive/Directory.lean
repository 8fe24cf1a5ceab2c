import StaticCompanion.Archive.Record

/-!
# Finding the directory

A directory is found from the end of a file. The last end record whose directory can be read
counts. Bytes that stand in front of the archive shift all of it, as what is found shows.
-/
namespace StaticCompanion.Archive

structure DirectoryPlace where
  /-- How far the archive is shifted. -/
  shift : Nat
  start : Nat
  count : Nat
  deriving DecidableEq, Repr

/-- The last offset before `bound` at which a test succeeds. -/
def findBack {α : Type} (test : Nat → Option α) : (bound : Nat) → Option α
  | 0 => none
  | bound + 1 =>
    match test bound with
    | some found => some found
    | none => findBack test bound

def findFrom {α : Type} (test : Nat → Option α) (offset : Nat) : (count : Nat) → Option α
  | 0 => none
  | count + 1 =>
    match test offset with
    | some found => some found
    | none => findFrom test (offset + 1) count

def signed? (file : ByteArray) (signature : Bytes) (offset : Nat) : Option Nat :=
  if slice? file offset signature.length = some signature then some offset else none

/-- The directory of an end record. The first record that follows where the directory should start
shows the shift; a directory without entries ends where the end record starts. -/
def DirectoryEnd.place? (file : ByteArray) (position : Nat) (stop : DirectoryEnd) :
    Option DirectoryPlace := do
  if stop.part ≠ stop.firstPart then none
  let shift ←
    if stop.count = 0 then some (position - stop.start)
    else
      let places := position - directorySignature.length + 1 - stop.start
      (findFrom (signed? file directorySignature) stop.start places).map (· - stop.start)
  return ⟨shift, stop.start + shift, stop.countHere⟩

/-- Whether a wide end record is the one that a locator tells of, which stands right behind it. The
directory has room in front of it. -/
def WideEnd.belongsTo (wide : WideEnd) (position : Nat) (locator : Locator)
    (locatorPosition : Nat) : Bool :=
  position + wideEndLength ≤ locatorPosition &&
    position + wideEndHead + wide.length = locatorPosition &&
    wide.firstPart = locator.firstPart &&
    wide.count * directoryLength + wide.start ≤ position

def WideEnd.place? (shift : Nat) (wide : WideEnd) : Option DirectoryPlace :=
  if wide.part ≠ wide.firstPart ∨ wide.count < wide.countHere ∨ wide.madeBy < wide.needed then none
  else some ⟨shift, wide.start + shift, wide.count⟩

/-- The directory that a locator leads to. How far the wide end record stands from where it should
stand shows the shift. -/
def Locator.place? (file : ByteArray) (position : Nat) (locator : Locator) :
    Option DirectoryPlace := do
  if 1 < locator.parts then none
  let wideEnd? (offset : Nat) : Option (Nat × WideEnd) := do
    let wide ← WideEnd.at? file offset
    if wide.belongsTo offset locator position then some (offset - locator.wideEndStart, wide)
    else none
  let (shift, wide) ← findFrom wideEnd? locator.wideEndStart (position - locator.wideEndStart)
  wide.place? shift

/-- The directory of the end record at an offset. If a number of it is full and a locator stands
in front of it, the locator counts. -/
def directoryPlace? (file : ByteArray) (position : Nat) : Option DirectoryPlace := do
  let stop ← DirectoryEnd.at? file position
  if stop.isFull ∧ locatorLength ≤ position then
    match Locator.at? file (position - locatorLength) with
    | some locator => locator.place? file (position - locatorLength)
    | none => stop.place? file position
  else stop.place? file position

/-- The least number that is too large for an offset in a file. -/
def offsetBound : Nat := 0x10000000000000000

/-- The records that stand one behind the other from an offset on, with the shift added to where
their local records start. -/
def records? (file : ByteArray) (shift : Nat) :
    (count offset : Nat) → Option (List DirectoryRecord)
  | 0, _ => some []
  | count + 1, offset => do
    let (record, length) ← directoryRecord? file offset
    let localStart := record.localStart + shift
    if offsetBound ≤ localStart then none
    let rest ← records? file shift count (offset + length)
    return { record with localStart } :: rest

def directoryBefore? (file : ByteArray) (position : Nat) : Option (List DirectoryRecord) := do
  let place ← directoryPlace? file position
  records? file place.shift place.count place.start

def directory? (file : ByteArray) : Option (List DirectoryRecord) :=
  findBack (directoryBefore? file) (file.size - endSignature.length + 1)

end StaticCompanion.Archive
