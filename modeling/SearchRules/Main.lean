import SearchRules.CommandLine.Run

/-!
# The program

The outer layer: it reads the files a command line names, lets the run work out its delivery, and delivers it.
-/

open SearchRules SearchRules.CommandLine

namespace SearchRules.CommandLine

/-- The environment variable that names the configuration file. -/
def environmentName : String :=
  (programName.map fun c => if c == '-' then '_' else c.toUpper) ++ "_CONFIG"

/-- The number the system gives to what goes wrong. It may arrive negated. -/
def systemNumber (code : UInt32) : Nat :=
  min code.toNat (UInt32.size - code.toNat)

/-- What goes wrong with a file, as an error of the system tells it. -/
def fileError : IO.Error → FileError
  | .noFileOrDirectory .. => .missing
  | .inappropriateType _ code _ => if systemNumber code = 20 then .notFolder else .isFolder
  | .invalidArgument _ code _ => if systemNumber code = 36 then .nameTooLong else .badName
  | e => .other (toString e)

/-- The text of a file, or what goes wrong with it. -/
def readFileText (path : String) : IO (Except FileError String) := do
  try
    return textOf (← IO.FS.readBinFile path)
  catch e => return .error (fileError e)

/-- The standard input. -/
def readInput : IO Input := do
  try
    return { bytes := ← (← IO.getStdin).readBinToEnd }
  catch e => return { bytes := .empty, fault := some (fileError e) }

/-- The paths of the files a command reads. -/
def Invocation.paths (i : Invocation) : List String :=
  i.config.toList ++
    match i.command with
    | .compile (some path) _ => if isStandard path then [] else [path]
    | _ => []

/-- Whether a command reads the standard input. -/
def Invocation.readsInput (i : Invocation) : Bool :=
  match i.command with
  | .compile none _ => true
  | .compile (some path) _ => isStandard path
  | _ => false

/-- What a command sees. -/
def Invocation.look (i : Invocation) : IO Surroundings := do
  let texts ← i.paths.mapM fun path => do return (path, ← readFileText path)
  let taken ← match i.command with
    | .initConfig file _ => do
      try
        let _ ← IO.FS.Handle.mk file IO.FS.Mode.read
        pure [file]
      catch _ => pure []
    | _ => pure []
  let input ← if i.readsInput then readInput else pure ""
  return {
    readText := fun path => (texts.lookup path).getD (.error .missing)
    hasPath := taken.contains
    input := input.text }

/-- Writes what a delivery has for a file, if that goes well, and gives what is to be printed then. -/
def deliver : Delivery → IO (Except RunError String)
  | .print text => return .ok text
  | .write path text report => do
    try
      IO.FS.writeBinFile path text.toUTF8
      return .ok report
    catch e => return .error (.file path (fileError e))

/-- Runs a command line, and gives what is to be printed. -/
def runProgram (args : List String) : IO (Except RunError String) := do
  match parse (← IO.getEnv environmentName) args with
  | .error cause => return .error (.refused cause)
  | .ok i =>
    match (← i.look).perform i with
    | .error e => return .error e
    | .ok delivery => deliver delivery

/-- Whether a text could be printed. -/
def prints (text : String) : IO Bool := do
  try
    IO.print text
    (← IO.getStdout).flush
    return true
  catch _ => return false

end SearchRules.CommandLine

/-- The program. -/
def main (args : List String) : IO UInt32 := do
  match ← runProgram args with
  | .ok text => return if ← prints text then 0 else 101
  | .error e =>
    match e, e.answer? helpText with
    | _, some text => discard (prints text)
    | .refused _, none => IO.eprint helpText
    | e, none => IO.eprintln ("Error: " ++ e.message?.getD "")
    return e.code.toUInt32
