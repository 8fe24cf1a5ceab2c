import StaticCompanion.Run.Session

namespace StaticCompanion

inductive UsageFault where
  | unknownOption (word : String)
  | unexpectedValue (option : String)
  /-- An option is given no value, or a path is empty. -/
  | missingValue (option : String)
  | repeatedOption (option : String)
  | unexpectedPath (word : String)
  | missingPath
  deriving DecidableEq, Repr

def UsageFault.message : UsageFault → String
  | unknownOption word => s!"unknown option {word}"
  | unexpectedValue option => s!"{option} takes no value"
  | missingValue option => s!"{option} needs a value"
  | repeatedOption option => s!"{option} is given twice"
  | unexpectedPath word => s!"one path too many: {word}"
  | missingPath => "an input and an output are needed"

structure Arguments where
  input : String
  output : String
  config : String
  dropsUnselected : Bool
  deriving DecidableEq, Repr

inductive Command where
  | help
  | version
  | run (arguments : Arguments)
  deriving DecidableEq, Repr

namespace CommandLine

/-- The words taken so far. -/
structure Given where
  /-- The paths, last first. -/
  paths : List String
  config : Option String
  dropsUnselected : Bool

def Given.nothing : Given := ⟨[], none, false⟩

def addPath (given : Given) (word : String) : Except UsageFault Given :=
  if given.paths.length = 2 then .error (.unexpectedPath word)
  else if word = "" then .error (.missingValue "a path")
  else .ok { given with paths := word :: given.paths }

def setConfig (given : Given) (value : String) : Except UsageFault Given :=
  match given.config with
  | some _ => .error (.repeatedOption "--config")
  | none => .ok { given with config := some value }

def setDrop (given : Given) : Except UsageFault Given :=
  if given.dropsUnselected then .error (.repeatedOption "--drop-unselected")
  else .ok { given with dropsUnselected := true }

inductive Form where
  | separator
  | long (name : String) (value : Option String)
  | short (letter : Char)
  | path

/-- The form of a word. A single hyphen is a path. -/
def formOf (word : String) : Form :=
  match word.toList with
  | ['-', '-'] => .separator
  | '-' :: '-' :: rest =>
    let name := String.ofList (rest.takeWhile (· ≠ '='))
    match rest.dropWhile (· ≠ '=') with
    | [] => .long name none
    | _ :: value => .long name (some (String.ofList value))
  | '-' :: letter :: _ => .short letter
  | _ => .path

/-- Whether a word can be the value of the option in front of it. -/
def isValue (word : String) : Bool :=
  match formOf word with
  | .path => true
  | .separator | .long .. | .short _ => false

def finish (given : Given) : Except UsageFault Command :=
  match given.paths with
  | [output, input] =>
    .ok (.run {
      input, output, config := given.config.getD BuiltIn.library.name
      dropsUnselected := given.dropsUnselected })
  | _ => .error .missingPath

def withoutValue {α : Type} (option : String) (value : Option String)
    (result : Except UsageFault α) : Except UsageFault α :=
  if value.isSome then .error (.unexpectedValue option) else result

/-- The command of some words behind those given. -/
def parseFrom (given : Given) : List String → Except UsageFault Command
  | [] => finish given
  | word :: words =>
    match formOf word with
    | .separator => do finish (← words.foldlM addPath given)
    | .long "help" value => withoutValue word value (.ok .help)
    | .long "version" value => withoutValue word value (.ok .version)
    | .long "drop-unselected" value =>
      withoutValue word value do parseFrom (← setDrop given) words
    | .long "config" (some value) => do parseFrom (← setConfig given value) words
    | .long "config" none =>
      match words with
      | [] => .error (.missingValue word)
      | value :: words =>
        if isValue value then do parseFrom (← setConfig given value) words
        else .error (.missingValue word)
    | .long _ _ => .error (.unknownOption word)
    | .short 'h' => .ok .help
    | .short 'V' => .ok .version
    | .short _ => .error (.unknownOption word)
    | .path => do parseFrom (← addPath given word) words

end CommandLine

def Command.ofWords (words : List String) : Except UsageFault Command :=
  CommandLine.parseFrom .nothing words

inductive CommandFault where
  | config (fault : UnknownConfig)
  | run (fault : RunFault)
  /-- The output would overwrite the input while it is read. -/
  | sameFile
  deriving DecidableEq, Repr

def CommandFault.message : CommandFault → String
  | config fault => fault.message
  | run fault => fault.message
  | sameFile => "the input and the output are the same file"

def Arguments.perform (arguments : Arguments) (input : Except ArchiveFault Archive) :
    Except CommandFault (List NamedData) := do
  let config ← (BuiltIn.ofName arguments.config).mapError .config
  if arguments.input = arguments.output then throw .sameFile
  let unselected : Unselected := if arguments.dropsUnselected then .dropped else .copied
  let options := { Options.ofBuiltIn config with unselected }
  let session ← (Job.run ⟨input, options⟩).mapError .run
  return session.output.getD []

end StaticCompanion
