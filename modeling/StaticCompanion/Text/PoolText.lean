import StaticCompanion.Format
import StaticCompanion.Text.ModifiedUtf8

namespace StaticCompanion

inductive PoolText where
  | valid (text : String)
  | invalid (bytes : Bytes)
  deriving DecidableEq, Repr

namespace PoolText

/-- Plain UTF-8 is tried first, modified UTF-8 second. -/
def ofBytes (bytes : Bytes) : PoolText :=
  match (Utf8.decode bytes).or (ModifiedUtf8.decode bytes) with
  | some text => valid (String.ofList text)
  | none => invalid bytes

/-- A text is always written as modified UTF-8. -/
def toBytes : PoolText → Bytes
  | valid text => ModifiedUtf8.encode text.toList
  | invalid bytes => bytes

def format : Format PoolText :=
  (Format.blob 2).map ofBytes toBytes

/-- The payload as people read it. -/
def render : PoolText → String
  | valid text => s!"String(\"{text}\")"
  | invalid bytes =>
    let digits := " ".intercalate (bytes.map fun byte => s!"0x{upperHex byte}")
    s!"String({digits}) // Invalid UTF-8"

end PoolText

end StaticCompanion
