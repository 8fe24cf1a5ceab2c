import StaticCompanion.Archive.Reading
import StaticCompanion.Archive.Writing
import StaticCompanion.Run.CommandLine

/-!
# The program

Reads an archive, adapts its classes and writes the result. The exit code is 0 for success, 1
for a run that fails and 2 for a command that is not understood.
-/
open StaticCompanion

def usageText : String :=
  "Moves supported members of the classes in an archive to static companion classes.

Usage: static-companion [OPTIONS] <INPUT> <OUTPUT>

Options:
      --config <CONFIG>  The built-in set of classes to adapt [default: d8_desugar]
      --drop-unselected  Leaves out classes that are not selected
  -h, --help             Shows this text
  -V, --version          Shows the version"

def versionText : String := "static-companion 0.1.0"

/-- Prints a message for people and gives an exit code. -/
def fail (code : UInt32) (message : String) : IO UInt32 := do
  IO.eprintln s!"error: {message}"
  return code

def readArchive (path : String) : IO (Except ArchiveFault Archive) := do
  try
    return Archive.ofFile (← IO.FS.readBinFile path)
  catch _ =>
    return .error .missing

def perform (arguments : Arguments) : IO UInt32 := do
  match arguments.perform (← readArchive arguments.input) with
  | .error fault => fail 1 fault.message
  | .ok entries =>
    match Archive.toFile entries with
    | .error fault => fail 1 fault.message
    | .ok file =>
      try
        IO.FS.writeBinFile arguments.output file
        return 0
      catch failure =>
        fail 1 failure.toString

def main (words : List String) : IO UInt32 := do
  match Command.ofWords words with
  | .error fault => fail 2 fault.message
  | .ok .help =>
    IO.println usageText
    return 0
  | .ok .version =>
    IO.println versionText
    return 0
  | .ok (.run arguments) => perform arguments
