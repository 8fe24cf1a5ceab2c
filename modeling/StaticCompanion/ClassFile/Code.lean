import StaticCompanion.ClassFile.Attribute

namespace StaticCompanion

/-- A stretch of code protected by an exception handler. -/
structure Handler where
  start : UInt16
  stop : UInt16
  entry : UInt16
  /-- The class that is caught, or 0 for any. -/
  catches : UInt16
  deriving DecidableEq, Repr

structure Code where
  maxStack : UInt16
  maxLocals : UInt16
  bytes : Bytes
  handlers : List Handler
  attributes : List Attribute
  deriving DecidableEq, Repr

/-- A row of a table of local variables; the type is a descriptor or a signature. -/
structure LocalVariable where
  start : UInt16
  length : UInt16
  name : UInt16
  type : UInt16
  slot : UInt16
  deriving DecidableEq, Repr

/-- A method that links call sites, and its static arguments. -/
structure Bootstrap where
  method : UInt16
  arguments : List UInt16
  deriving DecidableEq, Repr

open Format in
def Handler.format : Format Handler :=
  (u16.seq (u16.seq (u16.seq u16))).map
    (fun (start, stop, entry, catches) => ⟨start, stop, entry, catches⟩)
    fun handler => (handler.start, handler.stop, handler.entry, handler.catches)

open Format in
def Code.format : Format Code :=
  (u16.seq (u16.seq ((blob 4).seq ((list 2 Handler.format).seq Attribute.listFormat)))).map
    (fun (maxStack, maxLocals, bytes, handlers, attributes) =>
      ⟨maxStack, maxLocals, bytes, handlers, attributes⟩)
    fun code => (code.maxStack, code.maxLocals, code.bytes, code.handlers, code.attributes)

open Format in
def LocalVariable.format : Format LocalVariable :=
  (u16.seq (u16.seq (u16.seq (u16.seq u16)))).map
    (fun (start, length, name, type, slot) => ⟨start, length, name, type, slot⟩)
    fun var => (var.start, var.length, var.name, var.type, var.slot)

def LocalVariable.tableFormat : Format (List LocalVariable) := Format.list 2 format

open Format in
def Bootstrap.format : Format Bootstrap :=
  (u16.seq (list 2 u16)).map (fun (method, arguments) => ⟨method, arguments⟩)
    fun bootstrap => (bootstrap.method, bootstrap.arguments)

def Bootstrap.tableFormat : Format (List Bootstrap) := Format.list 2 format

end StaticCompanion
